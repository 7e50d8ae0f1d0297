import ImApp.ChatClient.Tombstones
import ImApp.ChatStore.Clean

/-!
Expired history on the client. The tombstones of a user are in storage, and in
memory while the user is signed in to them. A store that took in nothing that they
hide while they were not in force shows nothing that they hide.
-/

namespace ImApp.ChatStore

open AsyncTasks (State)
open ChatClient (World States SyncInvariant)
open JsonText (Text)
open StepSystem List Option App

variable {env : Env} {bound : Text → Nat} {app : App env} {id : Text} {answer : Answer}
  {piece : Piece env}

def Event.takesIn : Event → List Numbered
  | .receive items _ => items.map MessageItem.key
  | .conversationsChanged items => items.map ConversationItem.key
  | _ => []

def Answer.rows : Answer → List ConversationItem
  | .conversations list => list
  | _ => []

/-- The messages and rows that the end of a wait puts in the store, or compares with
the tombstones: those of the answer, and those that the operation captured before. -/
def Await.takesIn (app : App env) (answer : Answer) : Await → List Numbered
  | .reconcile _ list => list.map ConversationItem.key
  | .enterFind id => (App.foundIn answer.rows id).map ConversationItem.key
  | .enterOpen => answer.rows.map ConversationItem.key
  | .findConversation id => (App.foundIn answer.rows id).map ConversationItem.key
  | .reappearing _ id _ _ => (App.foundIn answer.rows id).map ConversationItem.key
  | .recallFind id _ _ => (App.foundIn answer.rows id).map ConversationItem.key
  | .history id request => match answer with
    | .page items _ _ => items.map (fun item => (id, item.seq)) ++ items.map MessageItem.key ++
        request.captured.map (fun m => (id, m.seq))
    | _ => []
  | .sending _ id _ => match answer with
    | .message item => [(id, item.seq), item.key]
    | _ => []
  | .reappeared _ id _ delivered => [(id, delivered.seq)]
  | .resolving _ id delivered => match answer with
    | .seq seq message => (id, seq) ::
        (app.resolvedItem delivered message).toList.map (fun item => (item.conversationId, seq))
    | _ => []
  | .recallSeq _ _ _ => match answer with
    | .seq _ message => message.toList.map MessageItem.key
    | _ => []
  | _ => []

/-- All that is taken in and that `bound` hides is hidden by the tombstones in force. -/
def TakesInCovered (bound : Text → Nat) (app : App env) (keys : List Numbered) : Prop :=
  ∀ key ∈ keys, Covered app.minSeq bound key

instance (bound : Text → Nat) (app : App env) (keys : List Numbered) :
    Decidable (TakesInCovered bound app keys) := inferInstanceAs (Decidable (∀ key ∈ keys, _))

namespace App.Clean

theorem allowGroups (list : List ConversationItem) (members : List Text) (h : app.Clean bound) :
    (app.allowGroups list members).Clean bound := by
  rw [App.allowGroups]
  induction members.filter _ generalizing app with
  | nil => exact h
  | cons member members ih => exact ih h.allowGroupConversation

theorem covered_rows {items : List ConversationItem}
    (h : TakesInCovered bound app (items.map ConversationItem.key)) :
    ∀ item ∈ items, Covered app.minSeq bound item.key := by
  intro item hitem
  exact h _ (mem_map_of_mem hitem)

theorem upsertFound {items : List ConversationItem} (h : app.Clean bound)
    (hkeys : TakesInCovered bound app ((App.foundIn items id).map ConversationItem.key)) :
    (app.upsertConversations (App.foundIn items id)).Clean bound :=
  h.upsertConversations (covered_rows hkeys)

theorem markUnread (h : app.Clean bound) (unreadCount : Nat) :
    (app.patchConversation id fun conv => { conv with unreadCount }).Clean bound :=
  h.patchConversation (fun _ hconv _ => hconv)

theorem setPinnedMessage (pinned : Option PinnedMessage) (h : app.Clean bound) :
    (app.setPinnedMessage id pinned).Clean bound :=
  h.patchConversation (fun _ hconv _ => hconv)

theorem setPinned (pinned : Bool) (h : app.Clean bound) :
    (app.patchConversation id fun conv => { conv with pinned }).Clean bound :=
  h.patchConversation (fun _ hconv _ => hconv)

theorem showPreview (send : Send) (content : Text) (h : app.Clean bound) :
    (app.showPreview id send content).Clean bound := by
  rw [App.showPreview]
  split
  · exact h.replaceMessage (covered_zero _ _ _)
  exact h

theorem filterConversations (h : app.Clean bound) : app.filterConversations.Clean bound := h.filter

theorem setBlacklist (keys : List Text) (h : app.Clean bound) :
    (app.setBlacklist keys).Clean bound := by
  have hkeys : ({ app with blockedPeerKeys := keys } : App env).Clean bound := h
  simp only [App.setBlacklist]
  split
  · exact hkeys
  exact hkeys.filterConversations

end App.Clean

/-- A piece has left the tombstones alone and the store clean. -/
structure Keeps (bound : Text → Nat) (app : App env) (piece : Piece env) : Prop where
  clean : piece.1.Clean bound
  frame : piece.1.frame = app.frame

variable (h : app.Clean bound)
include h

theorem keeps_same (waits : List Await) : Keeps bound app (app, waits) := ⟨h, rfl⟩

variable {reload : Reload}

theorem keeps_conversationsLogin
    (hpiece : app.conversationsLogin reload answer = some piece) : Keeps bound app piece := by
  cases answer with
  | done =>
    cases hpiece
    exact ⟨h, rfl⟩
  | failed unavailable =>
    cases hpiece
    exact keeps_same h _
  | _ => cases hpiece

theorem keeps_conversationsListed {retried : Bool}
    (hpiece : app.conversationsListed reload retried answer = some piece) :
    Keeps bound app piece := by
  cases answer with
  | conversations list | failed unavailable =>
    cases hpiece
    exact keeps_same h _
  | relogin =>
    cases retried with
    | false =>
      cases hpiece
      exact keeps_same h _
    | true => cases hpiece
  | _ => cases hpiece

theorem keeps_reconciled {list : List ConversationItem}
    (hkeys : TakesInCovered bound app (list.map ConversationItem.key))
    (hpiece : app.reconciled reload list answer = some piece) : Keeps bound app piece := by
  cases answer with
  | ids members =>
    cases hpiece
    refine ⟨?_, by simp⟩
    apply (h.allowGroups list members).replaceConversations
    rw [minSeq_of_frame (frame_allowGroups app list members)]
    exact App.Clean.covered_rows hkeys
  | _ => cases hpiece

theorem keeps_blacklistFetched (hpiece : app.blacklistFetched answer = some piece) :
    Keeps bound app piece := by
  cases answer with
  | ids keys =>
    cases hpiece
    exact ⟨h.setBlacklist keys, frame_setBlacklist app keys⟩
  | failed unavailable =>
    cases hpiece
    exact keeps_same h _
  | _ => cases hpiece

theorem keeps_remarksIndexed (hpiece : app.remarksIndexed answer = some piece) :
    Keeps bound app piece := by
  cases answer with
  | done =>
    cases hpiece
    exact ⟨h.applyContactRemarks, rfl⟩
  | failed unavailable =>
    cases hpiece
    exact keeps_same h _
  | _ => cases hpiece

theorem keeps_statusSubscribed {ids : List Text}
    (hpiece : app.statusSubscribed ids answer = some piece) : Keeps bound app piece := by
  have hsubscribed : ({ app with subscribedUserIDs := app.subscribedUserIDs ++ ids } :
      App env).Clean bound := h
  cases answer with
  | statuses states =>
    cases hpiece
    exact ⟨hsubscribed.setOnlineStatus states, rfl⟩
  | failed unavailable =>
    cases hpiece
    exact ⟨hsubscribed, rfl⟩
  | _ => cases hpiece

theorem keeps_statusQueried (hpiece : app.statusQueried answer = some piece) :
    Keeps bound app piece := by
  cases answer with
  | statuses states =>
    cases hpiece
    exact ⟨h.setOnlineStatus states, rfl⟩
  | failed unavailable =>
    cases hpiece
    exact keeps_same h _
  | _ => cases hpiece

theorem keeps_enterLogin (hpiece : app.enterLogin id answer = some piece) :
    Keeps bound app piece := by
  cases answer with
  | done =>
    have hsubscribed : ({ app with subscribed := true } : App env).Clean bound := h
    simp only [App.enterLogin] at hpiece
    split at hpiece
    · cases hpiece
      exact ⟨hsubscribed.unhideConversation, frame_unhideConversation _ id⟩
    cases hpiece
    exact ⟨hsubscribed, rfl⟩
  | failed unavailable =>
    cases hpiece
    exact keeps_same h _
  | _ => cases hpiece

theorem keeps_upsertFound {list : List ConversationItem} (waits : List Await)
    (hkeys : TakesInCovered bound app ((App.foundIn list id).map ConversationItem.key)) :
    Keeps bound app (app.upsertConversations (App.foundIn list id), waits) :=
  ⟨h.upsertFound hkeys, frame_upsertConversations app _⟩

theorem keeps_enterFound (hkeys : TakesInCovered bound app
      ((App.foundIn answer.rows id).map ConversationItem.key))
    (hpiece : app.enterFound id answer = some piece) : Keeps bound app piece := by
  cases answer with
  | conversations list =>
    simp only [App.enterFound] at hpiece
    split at hpiece
    · cases hpiece
      exact keeps_same h _
    cases hpiece
    have hshown : (app.unhideConversation id).Clean bound := h.unhideConversation
    refine ⟨?_, by simp⟩
    apply hshown.upsertConversations
    rw [minSeq_of_frame (frame_unhideConversation app id)]
    exact App.Clean.covered_rows hkeys
  | failed unavailable =>
    cases hpiece
    exact keeps_same h _
  | _ => cases hpiece

theorem keeps_enterOpened (hkeys : TakesInCovered bound app (answer.rows.map ConversationItem.key))
    (hpiece : app.enterOpened answer = some piece) : Keeps bound app piece := by
  cases answer with
  | conversations found =>
    cases hpiece
    refine ⟨?_, by simp⟩
    apply (h.allowGroups found _).upsertConversations
    rw [minSeq_of_frame (frame_allowGroups app found _)]
    exact App.Clean.covered_rows hkeys
  | failed unavailable =>
    cases hpiece
    exact keeps_same h _
  | _ => cases hpiece

theorem keeps_accessChecked (hpiece : app.accessChecked id answer = some piece) :
    Keeps bound app piece := by
  cases answer with
  | done =>
    cases hpiece
    exact ⟨h.allowGroupConversation, frame_allowGroupConversation app id⟩
  | failed unavailable =>
    cases hpiece
    cases unavailable with
    | false => exact keeps_same h _
    | true => exact ⟨h.removeExitedGroupConversation id, rfl⟩
  | _ => cases hpiece

theorem keeps_conversationFound (hkeys : TakesInCovered bound app
      ((App.foundIn answer.rows id).map ConversationItem.key))
    (hpiece : app.conversationFound id answer = some piece) : Keeps bound app piece := by
  cases answer with
  | conversations list =>
    cases hpiece
    exact keeps_upsertFound h _ hkeys
  | failed unavailable =>
    cases hpiece
    exact keeps_same h _
  | _ => cases hpiece

theorem keeps_historyAnswered {request : Request}
    (hkeys : TakesInCovered bound app ((Await.history id request).takesIn app answer))
    (hpiece : app.historyAnswered id request answer = some piece) : Keeps bound app piece := by
  cases answer with
  | page items isEnd now =>
    cases hpiece
    refine ⟨?_, frame_loaded app id request items isEnd now⟩
    simp only [TakesInCovered, Await.takesIn, forall_mem_append, List.forall_mem_map] at hkeys
    obtain ⟨⟨hhere, hown⟩, hcapt⟩ := hkeys
    apply h.loaded
    · intro item hitem
      exact ⟨hhere item hitem, hown item hitem⟩
    exact hcapt
  | failed unavailable =>
    cases hpiece
    exact keeps_same h _
  | _ => cases hpiece

theorem keeps_historyCleared (hpiece : app.historyCleared id answer = some piece) :
    Keeps bound app piece := by
  cases answer with
  | done =>
    cases hpiece
    exact ⟨h.clearHistory id, frame_clearHistory app id⟩
  | failed unavailable =>
    cases hpiece
    exact keeps_same h _
  | _ => cases hpiece

theorem keeps_messagePinned {pinned : Option PinnedMessage} {incoming : Bool}
    (hpiece : app.messagePinned id pinned incoming answer = some piece) :
    Keeps bound app piece := by
  have hpinned : Keeps bound app (app.setPinnedMessage id pinned, []) :=
    ⟨h.setPinnedMessage pinned, rfl⟩
  cases answer with
  | done =>
    cases hpiece
    exact hpinned
  | failed unavailable =>
    cases hpiece
    cases incoming with
    | false => exact keeps_same h _
    | true => exact hpinned
  | _ => cases hpiece

theorem keeps_conversationPinned {pinned : Bool}
    (hpiece : app.conversationPinned id pinned answer = some piece) : Keeps bound app piece := by
  cases answer with
  | done =>
    cases hpiece
    exact keeps_same h _
  | failed unavailable =>
    cases hpiece
    exact ⟨h.setPinned _, rfl⟩
  | _ => cases hpiece

variable {send : Send}

theorem keeps_imagePreviewed
    (hpiece : app.imagePreviewed id send answer = some piece) : Keeps bound app piece := by
  cases answer with
  | preview content =>
    cases hpiece
    exact ⟨h.showPreview send content, frame_showPreview app id send content⟩
  | _ => cases hpiece

variable {generation : Nat}

theorem keeps_sendAnswered
    (hkeys : TakesInCovered bound app ((Await.sending generation id send).takesIn app answer))
    (hpiece : app.sendAnswered generation id send answer = some piece) : Keeps bound app piece := by
  cases answer with
  | message item =>
    simp only [App.sendAnswered] at hpiece
    split at hpiece
    · cases hpiece
      exact keeps_same h _
    cases hpiece
    refine ⟨?_, frame_sent app id generation send item⟩
    simp only [TakesInCovered, Await.takesIn, forall_mem_cons] at hkeys
    exact h.sent generation send hkeys.1 hkeys.2.1
  | failed unavailable =>
    simp only [App.sendAnswered] at hpiece
    split at hpiece
    · cases hpiece
      exact keeps_same h _
    cases hpiece
    exact ⟨h.sendFailed send unavailable, frame_sendFailed app id send unavailable⟩
  | _ => cases hpiece

variable {delivered : ChatMessage}

theorem keeps_conversationReappeared (hkeys : TakesInCovered bound app
      ((App.foundIn answer.rows id).map ConversationItem.key))
    (hpiece : app.conversationReappeared generation id send delivered answer = some piece) :
    Keeps bound app piece := by
  cases answer with
  | conversations list =>
    cases hpiece
    exact keeps_upsertFound h _ hkeys
  | failed unavailable =>
    cases hpiece
    exact keeps_same h _
  | _ => cases hpiece

theorem keeps_sendReappeared (hkeys : TakesInCovered bound app [(id, delivered.seq)])
    (hpiece : app.sendReappeared generation id send delivered answer = some piece) :
    Keeps bound app piece := by
  cases answer with
  | done =>
    simp only [App.sendReappeared] at hpiece
    split at hpiece
    · cases hpiece
      exact keeps_same h _
    cases hpiece
    exact ⟨h.reappeared generation send (hkeys _ mem_cons_self),
      frame_reappeared app id generation send delivered⟩
  | _ => cases hpiece

theorem keeps_seqResolved (hkeys : TakesInCovered bound app
      ((Await.resolving generation id delivered).takesIn app answer))
    (hpiece : app.seqResolved generation id delivered answer = some piece) :
    Keeps bound app piece := by
  cases answer with
  | seq seq message =>
    simp only [App.seqResolved] at hpiece
    split at hpiece
    · cases hpiece
      exact keeps_same h _
    cases hpiece
    refine ⟨?_, frame_resolved app id delivered seq message⟩
    simp only [TakesInCovered, Await.takesIn, forall_mem_cons, List.forall_mem_map] at hkeys
    apply h.resolved hkeys.1
    intro item hitem
    exact hkeys.2 item (mem_toList.mpr hitem)
  | failed unavailable =>
    cases hpiece
    exact keeps_same h _
  | _ => cases hpiece

variable {messageId tip user : Text}

theorem keeps_recallFound (hkeys : TakesInCovered bound app
      ((App.foundIn answer.rows id).map ConversationItem.key))
    (hpiece : app.recallFound id messageId tip answer = some piece) : Keeps bound app piece := by
  cases answer with
  | conversations list =>
    simp only [App.recallFound] at hpiece
    split at hpiece
    · cases hpiece
      exact keeps_same h _
    cases hpiece
    exact keeps_upsertFound h _ hkeys
  | failed unavailable =>
    cases hpiece
    exact keeps_same h _
  | _ => cases hpiece

theorem keeps_recallResolved
    (hkeys : TakesInCovered bound app ((Await.recallSeq id messageId tip).takesIn app answer))
    (hpiece : app.recallResolved id messageId tip answer = some piece) : Keeps bound app piece := by
  cases answer with
  | seq seq message =>
    cases hpiece
    refine ⟨?_, frame_rememberAll app message.toList⟩
    apply h.rememberAll
    intro item hitem
    exact hkeys _ (mem_map_of_mem hitem)
  | failed unavailable =>
    cases hpiece
    exact keeps_same h _
  | _ => cases hpiece

theorem keeps_recalled
    (hpiece : app.recalled id messageId tip answer = some piece) : Keeps bound app piece := by
  cases answer with
  | done =>
    cases hpiece
    exact ⟨h.dropRevokedMessage, frame_dropRevokedMessage app id messageId tip⟩
  | failed unavailable =>
    cases hpiece
    exact keeps_same h _
  | _ => cases hpiece

theorem keeps_resume {await : Await} (hkeys : TakesInCovered bound app (await.takesIn app answer))
    (hpiece : app.resume await answer = some piece) : Keeps bound app piece := by
  cases await with
  | loginForConversations reload => exact keeps_conversationsLogin h hpiece
  | conversationList reload retried => exact keeps_conversationsListed h hpiece
  | reconcile reload list => exact keeps_reconciled h hkeys hpiece
  | blacklist => exact keeps_blacklistFetched h hpiece
  | remarkIndex => exact keeps_remarksIndexed h hpiece
  | unsubscribeStatus gone wanted =>
    rw [settled_eq hpiece]
    exact ⟨h, rfl⟩
  | subscribeStatus ids => exact keeps_statusSubscribed h hpiece
  | queryStatus => exact keeps_statusQueried h hpiece
  | loginToEnter id => exact keeps_enterLogin h hpiece
  | enterFind id => exact keeps_enterFound h hkeys hpiece
  | enterOpen => exact keeps_enterOpened h hkeys hpiece
  | checkAccess id => exact keeps_accessChecked h hpiece
  | findConversation id => exact keeps_conversationFound h hkeys hpiece
  | history id request => exact keeps_historyAnswered h hkeys hpiece
  | markRead id target =>
    rw [settled_eq hpiece]
    exact ⟨h.markUnread 0, frame_markedRead app id target⟩
  | clearHistory id => exact keeps_historyCleared h hpiece
  | removeLocal id messageId =>
    rw [settled_eq hpiece]
    exact ⟨h.removeLocal id messageId, frame_removeLocal app id messageId⟩
  | pinMessage id pinned incoming => exact keeps_messagePinned h hpiece
  | pinConversation id pinned => exact keeps_conversationPinned h hpiece
  | imagePreview id send => exact keeps_imagePreviewed h hpiece
  | sending generation id send => exact keeps_sendAnswered h hkeys hpiece
  | reappearing generation id send delivered => exact keeps_conversationReappeared h hkeys hpiece
  | reappeared generation id send delivered => exact keeps_sendReappeared h hkeys hpiece
  | resolving generation id delivered => exact keeps_seqResolved h hkeys hpiece
  | recallFind id messageId tip => exact keeps_recallFound h hkeys hpiece
  | recallSeq id messageId tip => exact keeps_recallResolved h hkeys hpiece
  | recallServer id messageId tip => exact keeps_recalled h hpiece

omit h in
theorem keeps_whenSubscribed {next : Piece env} (hnext : Keeps bound app next)
    (hpiece : app.whenSubscribed next = some piece) : Keeps bound app piece := by
  rw [App.whenSubscribed] at hpiece
  split at hpiece
  · rw [← some.inj hpiece]
    exact hnext
  cases hpiece

theorem keeps_insertPlaceholder (type : MessageType) (content : Text) (createdAt : Nat)
    (stage : Stage) (waits : List Await) :
    Keeps bound app ((app.insertPlaceholder id type content createdAt stage).1, waits) := by
  have hcounted : ({ app with placeholderSeq := app.placeholderSeq + 1 } : App env).Clean bound :=
    h
  refine ⟨?_, rfl⟩
  apply hcounted.setMessages
  intro m hm
  rcases mem_append.mp hm with hold | hnew
  · exact h.listed id m hold
  rw [mem_singleton.mp hnew]
  rfl

theorem keeps_start {event : Event} (hother : ∀ action, event ≠ .retention action)
    (hkeys : TakesInCovered bound app event.takesIn)
    (hpiece : app.start event = some piece) : Keeps bound app piece := by
  cases event with
  | retention action => exact absurd rfl (hother action)
  | receive items now =>
    apply keeps_whenSubscribed _ hpiece
    refine ⟨?_, frame_ingestIncoming app now items⟩
    apply h.ingestIncoming now
    intro item hitem
    exact hkeys _ (mem_map_of_mem hitem)
  | conversationsChanged items =>
    apply keeps_whenSubscribed _ hpiece
    exact ⟨h.upsertConversations (App.Clean.covered_rows hkeys),
      frame_upsertConversations app items⟩
  | revoked id clientMsgId tip =>
    exact keeps_whenSubscribed ⟨h.dropRevokedMessage, rfl⟩ hpiece
  | readReceipts msgIds =>
    exact keeps_whenSubscribed ⟨h.markLoadedMessagesRead msgIds, rfl⟩ hpiece
  | userStatus state =>
    exact keeps_whenSubscribed ⟨h.setOnlineStatus [state], rfl⟩ hpiece
  | loadMoreMessages id =>
    simp only [App.start] at hpiece
    split at hpiece <;>
    · cases hpiece
      exact keeps_same h _
  | locateMessage id target =>
    simp only [App.start] at hpiece
    split at hpiece
    · cases hpiece
      exact keeps_same h _
    split at hpiece <;>
    · cases hpiece
      exact keeps_same h _
  | togglePin id =>
    obtain ⟨conv, -, rfl⟩ := map_eq_some_iff.mp hpiece
    exact ⟨h.setPinned _, rfl⟩
  | send id type content createdAt =>
    obtain ⟨conv, -, rfl⟩ := map_eq_some_iff.mp hpiece
    exact keeps_insertPlaceholder h type content createdAt .sending _
  | prepareOutgoingImage id content createdAt =>
    obtain ⟨conv, -, rfl⟩ := map_eq_some_iff.mp hpiece
    exact keeps_insertPlaceholder h .image content createdAt .prepared _
  | setUser userId hidden exited blocked =>
    cases hpiece
    have huser : ({ app with
        imUserId := userId
        hiddenIds := hidden
        exitedGroupIds := exited
        blockedPeerKeys := blocked } : App env).Clean bound := h
    exact ⟨huser.filterConversations, rfl⟩
  | hideConversation id =>
    cases hpiece
    have hhidden : ({ app with hiddenIds := id :: app.hiddenIds } : App env).Clean bound := h
    exact ⟨hhidden.filter, rfl⟩
  | removeExitedGroupConversation id =>
    cases hpiece
    exact ⟨h.removeExitedGroupConversation id, rfl⟩
  | _ =>
    cases hpiece
    exact ⟨h, rfl⟩

omit h

/-- The boundaries that storage has for a user. -/
def App.durable (app : App env) (user id : Text) : Nat :=
  (ChatClient.load (app.retention.disk user) : States env.dateParses).minSeq id

/-- The higher of the boundaries in memory, while the user is signed in to them, and
in storage. -/
def App.boundary (app : App env) (user id : Text) : Nat :=
  max (if app.retention.sync.owner = user then app.minSeq id else 0) (app.durable user id)

theorem minSeq_eq_durable (hinv : SyncInvariant app.retention)
    (howner : app.retention.sync.owner = user) (huser : user ≠ []) :
    app.minSeq = app.durable user := by
  funext id
  rw [App.minSeq, App.durable, ChatClient.Sync.minSeq,
    hinv.loaded (by rw [howner]; exact huser), howner]

theorem boundary_eq (hinv : SyncInvariant app.retention) (huser : user ≠ []) :
    app.boundary user = app.durable user := by
  funext id
  rw [App.boundary]
  split
  case isTrue howner => rw [minSeq_eq_durable hinv howner huser, Nat.max_self]
  case isFalse => exact Nat.zero_max _

variable {action : ChatClient.Action}

/-- The listeners are told of every boundary of the present user that a response moves
on, and no response moves one of another user. -/
theorem minSeq_changedBy {world next : World env.dateParses} (hinv : SyncInvariant world) (hstep : ChatClient.step world action = some next)
    (hid : user = world.sync.owner → id ∉ App.changedBy world action) :
    (ChatClient.load (next.disk user) : States env.dateParses).minSeq id =
      (ChatClient.load (world.disk user) : States env.dateParses).minSeq id := by
  cases action with
  | answer index reply now =>
    obtain ⟨task, htask, rfl⟩ := map_eq_some_iff.mp hstep
    rcases ChatClient.answer_cases world task reply now with
      hsame | ⟨rows, hacc, hgen, hcommit⟩
    · rw [hsame]
    obtain ⟨howner, -⟩ := hinv.owner task (mem_of_getElem? htask) hgen
    have hloaded := ChatClient.commit_loaded hinv task.ids rows now howner
    rw [hcommit]
    simp only
    rcases eq_or_ne user world.sync.owner with rfl | hother
    · rw [← hloaded, ← hinv.loaded howner]
      apply ChatClient.minSeq_foldl
      have hunchanged := hid rfl
      simpa only [App.changedBy, htask, ne_eq, hgen, not_true_eq_false, if_false,
        hacc] using hunchanged
    rw [(ChatClient.commit_disk hinv howner task.ids rows now).2 user hother]
  | setOwner owner | restart =>
    cases hstep
    rfl
  | sync ids force now =>
    simp only [ChatClient.step] at hstep
    split at hstep <;>
    · cases hstep
      rfl
  | nextBatch index =>
    obtain ⟨call, -, rfl⟩ := map_eq_some_iff.mp hstep
    rcases ChatClient.nextBatch_cases world call with hsame | ⟨-, ids, hnew⟩
    · rw [hsame]
    rw [hnew]

theorem owner_of_changed {world next : World env.dateParses}
    (hchanged : App.changedBy world action ≠ [])
    (hstep : ChatClient.step world action = some next) : next.sync.owner = world.sync.owner := by
  cases action with
  | answer index reply now =>
    obtain ⟨task, -, rfl⟩ := map_eq_some_iff.mp hstep
    rcases ChatClient.answer_cases world task reply now with hsame | ⟨rows, -, -, hcommit⟩
    · rw [hsame]
    rw [hcommit]
    rfl
  | _ => exact absurd rfl hchanged

variable {next : App env}

theorem retain_cases (h : app.retain action = some next) :
    ∃ world, ChatClient.step app.retention action = some world ∧
      next = if app.subscribed && !(App.changedBy app.retention action).isEmpty then
          ({ app with retention := world } : App env).pruneRetainedHistory
            (App.changedBy app.retention action)
        else { app with retention := world } := by
  cases action with
  | restart => cases h
  | _ =>
    simp only [App.retain, map_eq_some_iff] at h
    obtain ⟨world, hworld, rfl⟩ := h
    exact ⟨world, hworld, rfl⟩

/-- A boundary that moves on takes what it hides out of the store, when the store
listens. A change of owners leaves what storage has for each of them. -/
theorem App.Clean.retain
    (h : app.Clean (app.durable user)) (hinv : SyncInvariant app.retention) (huser : user ≠ [])
    (hlistens : App.changedBy app.retention action ≠ [] → app.subscribed = true)
    (hstep : app.retain action = some next) :
    next.Clean (next.durable user) ∧ SyncInvariant next.retention := by
  obtain ⟨world, hworld, rfl⟩ := retain_cases hstep
  have hpre : ({ app with retention := world } : App env).Clean (app.durable user) := h
  have hnext : SyncInvariant world := ChatClient.syncInvariant_step hinv hworld
  have hsame : ∀ id, (user = app.retention.sync.owner → id ∉ App.changedBy app.retention action) →
        ({ app with retention := world } : App env).durable user id = app.durable user id :=
    fun id hid => minSeq_changedBy hinv hworld hid
  split
  case isTrue hpruned =>
    have hchanged : App.changedBy app.retention action ≠ [] := by
      intro hnone
      simp [hnone] at hpruned
    refine ⟨?_, hnext⟩
    by_cases howner : user = app.retention.sync.owner
    · have hforce : ({ app with retention := world } : App env).minSeq =
          ({ app with retention := world } : App env).durable user :=
        minSeq_eq_durable hnext ((owner_of_changed hchanged hworld).trans howner.symm) huser
      have hmoved : ∀ id, id ∉ App.changedBy app.retention action →
          ({ app with retention := world } : App env).minSeq id = app.durable user id := by
        intro id hid
        rw [hforce]
        exact hsame id (fun _ => hid)
      have hclean := hpre.pruned hmoved
      rw [hforce] at hclean
      exact hclean
    have hstill : ({ app with retention := world } : App env).durable user =
        app.durable user := funext fun id => hsame id (fun hthis => absurd hthis howner)
    have hclean := hpre.pruneRetainedHistory (App.changedBy app.retention action)
    rw [← hstill] at hclean
    exact hclean
  case isFalse hkept =>
    have hnone : App.changedBy app.retention action = [] := by
      by_contra hchanged
      apply hkept
      simp [hlistens hchanged, hchanged]
    have hstill : ({ app with retention := world } : App env).durable user = app.durable user := by
      funext id
      apply hsame
      intro _
      rw [hnone]
      exact not_mem_nil
    refine ⟨?_, hnext⟩
    rw [hstill]
    exact h

/-- Realtime is subscribed when the answer to a request for boundaries arrives. -/
def Listening (s : State (App env) Await) : AsyncTasks.Action Await Event Answer → Prop
  | .start (.retention (.answer _ _ _)) => s.shared.subscribed = true
  | _ => True

/-- Nothing is taken in that the tombstones of the user hide and those in force do
not. -/
def InForce (user : Text) (s : State (App env) Await) : AsyncTasks.Action Await Event Answer → Prop
  | .start event => TakesInCovered (s.shared.durable user) s.shared event.takesIn
  | .resume task answer =>
    TakesInCovered (s.shared.durable user) s.shared (task.wait.takesIn s.shared answer)
  | .endSession => True

instance (s : State (App env) Await) (action : AsyncTasks.Action Await Event Answer) :
    Decidable (Listening s action) := by
  unfold Listening
  split
  · infer_instance
  infer_instance

instance (user : Text) (s : State (App env) Await)
    (action : AsyncTasks.Action Await Event Answer) : Decidable (InForce user s action) := by
  cases action with
  | start event => exact inferInstanceAs (Decidable (TakesInCovered _ _ _))
  | resume task answer => exact inferInstanceAs (Decidable (TakesInCovered _ _ _))
  | endSession => exact inferInstanceAs (Decidable True)

/-- No message that the boundaries of the user hide is listed, kept for quoting and
forwarding, or previewed. -/
def HistoryHidden (user : Text) (app : App env) : Prop := app.Clean (app.boundary user)

/-- The store is clean of what the tombstones of the user hide. -/
structure Expired (user : Text) (app : App env) : Prop where
  clean : app.Clean (app.durable user)
  tombstones : SyncInvariant app.retention

theorem durable_of_frame (hframe : next.frame = app.frame) : next.durable = app.durable := by
  have hretention : next.retention = app.retention := congrArg Prod.snd hframe
  funext user id
  rw [App.durable, App.durable, hretention]

theorem Expired.keeps (h : Expired user app)
    (hpiece : Keeps (app.durable user) app piece) : Expired user piece.1 := by
  have hretention : piece.1.retention = app.retention := congrArg Prod.snd hpiece.frame
  refine ⟨?_, ?_⟩
  · rw [durable_of_frame hpiece.frame]
    exact hpiece.clean
  rw [hretention]
  exact h.tombstones

theorem expired_step (huser : user ≠ []) {s t : State (App env) Await}
    {action : AsyncTasks.Action Await Event Answer} (hs : Expired user s.shared)
    (hlistens : Listening s action) (hforce : InForce user s action)
    (hstep : (storeMachine env).step s action = some t) : Expired user t.shared := by
  cases action with
  | start event =>
    obtain ⟨piece, hpiece, rfl⟩ := map_eq_some_iff.mp hstep
    by_cases hretention : ∃ change, event = .retention change
    · obtain ⟨change, rfl⟩ := hretention
      obtain ⟨next, hnext, rfl⟩ := map_eq_some_iff.mp hpiece
      have hsubscribed : App.changedBy s.shared.retention change ≠ [] →
          s.shared.subscribed = true := by
        intro hchanged
        cases change with
        | answer index reply now => exact hlistens
        | _ => exact absurd rfl hchanged
      obtain ⟨hclean, hinv⟩ := hs.clean.retain hs.tombstones huser hsubscribed hnext
      exact ⟨hclean, hinv⟩
    apply hs.keeps
    apply keeps_start hs.clean _ hforce hpiece
    intro change hchange
    exact hretention ⟨change, hchange⟩
  | resume task answer =>
    obtain ⟨-, piece, hpiece, rfl⟩ := AsyncTasks.resume_some hstep
    exact hs.keeps (keeps_resume hs.clean hforce hpiece)
  | endSession =>
    cases hstep
    exact ⟨clean_empty _, hs.tombstones⟩

/-- Expired history stays invisible to a user in every run from an empty store, with
any changes of owners, as long as nothing that the tombstones of the user hide is
taken in while they are not in force. -/
theorem expired_history_hidden {user : Text} (huser : user ≠ []) {s t : State (App env) Await}
    (hempty : Fresh s.shared)
    (htombstones : (ChatClient.machine env.dateParses).Reachable s.shared.retention)
    (hrun : (storeMachine env).Path
      (fun s action => Listening s action ∧ InForce user s action) s t) :
    HistoryHidden user t.shared := by
  have hstart : Expired user s.shared := by
    refine ⟨?_, ChatClient.syncInvariant htombstones⟩
    have hshown : s.shared.shown = .empty := hempty
    rw [App.Clean, hshown]
    exact clean_empty _
  have hend := hrun.preserves (fun s => Expired user s.shared)
    (fun _ _ _ hallow hs hstep => expired_step huser hs hallow.1 hallow.2 hstep) hstart
  rw [HistoryHidden, boundary_eq hend.tombstones huser]
  exact hend.clean

def expiryEnv : Env :=
  ⟨ChatClient.allDates, fun key => key, fun _ _ => [], fun label => label, fun primary _ => primary⟩

def justOpened : State (App expiryEnv) Await :=
  ⟨⟨.empty, [], 0, false, ['u'], [], [], [], [], 0, ChatClient.sampleStart⟩, 0, []⟩

def groupMessageAt (name : Char) (seq : Nat) : MessageItem :=
  ⟨[name], ChatClient.sampleGroup, ['p'], [], .text, [name], 0, false, seq, .sent, none, false,
    false⟩

/-- The store is subscribed when the user signs in to the tombstones and the group gets
the boundary 5. -/
def signedIn : List (AsyncTasks.Action Await Event Answer) :=
  .start .subscribeRealtime ::
    ChatClient.boundaryActions.map (fun action => .start (.retention action))

/-- The login of the SDK is lost and restored, and in between the SDK tells of a
message. -/
def relogin (seq : Nat) : List (AsyncTasks.Action Await Event Answer) :=
  [.start (.retention (.setOwner [])), .start (.receive [groupMessageAt 'a' seq] 0),
    .start (.retention (.setOwner ['u']))]

/-- A message above the boundary is shown after the login is restored. -/
theorem expired_history_hidden_relogin : ∃ t : State (App expiryEnv) Await,
    (t.shared.messages ChatClient.sampleGroup).ids = [.client ['a']] ∧
      HistoryHidden ['u'] t.shared := by
  have hrun : ((storeMachine expiryEnv).executeBy
      (fun s action => Listening s action ∧ InForce ['u'] s action) justOpened
        (signedIn ++ relogin 7)).any (fun t =>
          (t.shared.messages ChatClient.sampleGroup).ids = [.client ['a']]) = true := by
    decide +kernel
  obtain ⟨t, ht, hids⟩ := (any_eq_true _ _).mp hrun
  exact ⟨t, of_decide_eq_true hids, expired_history_hidden (s := justOpened) (by decide) rfl
    (Machine.reachableBy_initial ⟨rfl, rfl, rfl⟩) (Machine.path_of_executeBy ht)⟩

/-- A message below the boundary is still shown when the boundary is in force again. -/
theorem relogin_shows_expired : ∃ t : State (App expiryEnv) Await,
    (storeMachine expiryEnv).initial justOpened ∧
      (ChatClient.machine expiryEnv.dateParses).Reachable justOpened.shared.retention ∧
      (storeMachine expiryEnv).Path Listening justOpened t ∧
      t.shared.subscribed = true ∧ t.shared.retention.sync.owner = ['u'] ∧
      t.shared.minSeq ChatClient.sampleGroup = 5 ∧
      (t.shared.messages ChatClient.sampleGroup).map ChatMessage.seq = [3] ∧
      ¬ HistoryHidden ['u'] t.shared := by
  have hrun : ((storeMachine expiryEnv).executeBy Listening justOpened
      (signedIn ++ relogin 3)).any (fun t => t.shared.subscribed &&
        t.shared.retention.sync.owner = ['u'] && t.shared.minSeq ChatClient.sampleGroup = 5 &&
          (t.shared.messages ChatClient.sampleGroup).map ChatMessage.seq = [3]) = true := by
    decide +kernel
  obtain ⟨t, ht, hchecked⟩ := (any_eq_true _ _).mp hrun
  simp only [Bool.and_eq_true, decide_eq_true_eq] at hchecked
  obtain ⟨⟨⟨hsubscribed, howner⟩, hbound⟩, hshown⟩ := hchecked
  refine ⟨t, ⟨rfl, rfl⟩, Machine.reachableBy_initial ⟨rfl, rfl, rfl⟩,
    Machine.path_of_executeBy ht, hsubscribed, howner, hbound, hshown, ?_⟩
  intro hhidden
  have hmem : 3 ∈ (t.shared.messages ChatClient.sampleGroup).map ChatMessage.seq := by
    rw [hshown]
    exact mem_singleton_self _
  obtain ⟨m, hm, hseq⟩ := mem_map.mp hmem
  have hvis := hhidden.listed ChatClient.sampleGroup m hm
  have hle : 5 ≤ t.shared.boundary ['u'] ChatClient.sampleGroup := by
    rw [App.boundary, if_pos howner, hbound]
    exact Nat.le_max_left _ _
  simp only [removed, hseq, Bool.and_eq_false_iff, decide_eq_false_iff_not] at hvis
  omega

end ImApp.ChatStore
