import ImApp.ChatClient.GroupRetention
import ImApp.ChatStore.Room

/-!
The rows of the conversation list, each with a preview of its latest message. A
preview of a message that is no longer visible is blank.
-/

namespace ImApp.ChatStore

open JsonText (Text)

/-- The message in the banner of a conversation. -/
structure PinnedMessage where
  clientMsgID : MessageId
  shared : Bool
  pinnedAt : Nat
  deriving DecidableEq

/-- A row of the list. `lastMessageSeq` is zero as long as it is unknown, and a row
without a preview has no time. -/
structure Conversation where
  id : Text
  isGroup : Bool
  lastMessage : Text
  lastMessageAt : Option Nat
  lastMessageSeq : Nat
  lastMessageId : Option MessageId
  unreadCount : Nat
  pinned : Bool
  pinnedMessage : Option PinnedMessage
  peerUserId : Text

/-- What is read of a conversation of the SDK, with a summary of its latest message. -/
structure ConversationItem where
  conversationID : Text
  isGroup : Bool
  latestMsg : Text
  latestSeq : Nat
  latestId : Option Text
  latestMsgSendTime : Nat
  unreadCount : Nat
  isPinned : Bool
  pinnedMessage : Option PinnedMessage
  userID : Text
  deriving DecidableEq

/-- Unread messages that are no longer visible are not counted. -/
def unread (minSeq seq count : Nat) : Nat :=
  if minSeq = 0 ∨ seq = 0 then count else min count (seq + 1 - minSeq)

def toConversation (minSeq : Text → Nat) (item : ConversationItem) : Conversation :=
  let latestRemoved := removed (minSeq item.conversationID) item.latestSeq
  { id := item.conversationID
    isGroup := item.isGroup
    lastMessage := if latestRemoved then [] else item.latestMsg
    lastMessageAt := if latestRemoved then none else some item.latestMsgSendTime
    lastMessageSeq := item.latestSeq
    lastMessageId := item.latestId.map .client
    unreadCount := if latestRemoved then 0
      else unread (minSeq item.conversationID) item.latestSeq item.unreadCount
    pinned := item.isPinned
    pinnedMessage := item.pinnedMessage
    peerUserId := item.userID }

def sanitizeRetentionPreview (minSeq : Text → Nat) (conv : Conversation) : Conversation :=
  if removed (minSeq conv.id) conv.lastMessageSeq then
    { conv with lastMessage := [], lastMessageAt := none, unreadCount := 0 }
  else { conv with unreadCount := unread (minSeq conv.id) conv.lastMessageSeq conv.unreadCount }

/-- `replaceLabel` names the administrator of the SDK in a preview. -/
def decorateConversation (minSeq : Text → Nat) (replaceLabel : Text → Text)
    (conv : Conversation) : Conversation :=
  let conv := sanitizeRetentionPreview minSeq conv
  sanitizeRetentionPreview minSeq { conv with
      lastMessage := if conv.lastMessage = [] then [] else replaceLabel conv.lastMessage }

/-- What a row of the SDK replaces of the row in the list, whose preview may be
newer and whose unread count may have been cleared. -/
def keepNewerPreview (minSeq : Text → Nat) (active : Text) (prev next : Conversation) :
    Conversation :=
  let prevTime := prev.lastMessageAt.getD 0
  let nextTime := next.lastMessageAt.getD 0
  let merged :=
    if prev.lastMessage ≠ [] ∧ nextTime < prevTime then
      { next with
        lastMessage := prev.lastMessage
        lastMessageAt := prev.lastMessageAt
        lastMessageSeq := prev.lastMessageSeq
        lastMessageId := prev.lastMessageId }
    else next
  let unreadCount :=
    if active ≠ [] ∧ merged.id = active then 0
    else if prev.unreadCount = 0 ∧ nextTime ≤ prevTime then 0
    else merged.unreadCount
  let pinnedMessage :=
    match prev.pinnedMessage with
    | some pinned =>
      if (next.pinnedMessage.map PinnedMessage.pinnedAt).getD 0 ≤ pinned.pinnedAt then some pinned
      else next.pinnedMessage
    | none => next.pinnedMessage
  sanitizeRetentionPreview minSeq { merged with unreadCount, pinnedMessage }

def previewOf (message : ChatMessage) : Text :=
  match message.type with
  | .image => "[图片]".toList
  | .voice => "[语音]".toList
  | .video => "[视频]".toList
  | .file => "[文件]".toList
  | .card => "[名片]".toList
  | .groupInvite => "[群邀请]".toList
  | _ => message.content

abbrev Conversations := List Conversation

namespace Conversations

def find (list : Conversations) (id : Text) : Option Conversation :=
  list.find? (fun conv => conv.id = id)

/-- Changes the first row of a conversation. -/
def patch (id : Text) (edit : Conversation → Conversation) : Conversations → Conversations
  | [] => []
  | conv :: rest => if conv.id = id then edit conv :: rest else conv :: patch id edit rest

/-- Puts a row of the SDK in. -/
def upsert (minSeq : Text → Nat) (active : Text) (list : Conversations) (conv : Conversation) :
    Conversations :=
  if (list.find conv.id).isSome then
    list.patch conv.id (fun prev => keepNewerPreview minSeq active prev conv)
  else list ++ [conv]

end Conversations

variable {minSeq : Text → Nat} {bound : Nat} {conv prev next : Conversation}

/-- The preview is blank or not hidden. -/
def Conversation.Visible (boundary : Text → Nat) (conv : Conversation) : Prop :=
  conv.lastMessage ≠ [] → removed (boundary conv.id) conv.lastMessageSeq = false

end ImApp.ChatStore

/-!
The chat store: the conversations and their messages, the messages of the SDK that
quoting and forwarding need, and the operations on them that run without waiting.
-/

namespace ImApp.ChatStore

open ChatClient (World)
open JsonText (Text)

/-- What is left to the surroundings: which texts are dates, the key under which a
user is blocked, the peer that the id of a private conversation names besides the
user, the label of the administrator, and the merge of two videos. -/
structure Env where
  dateParses : Text → Bool
  normalizePeerKey : Text → Text
  peerIdFromSingleConversation : Text → Text → Text
  replaceLabel : Text → Text
  mergeVideoContent : Text → Text → Text

/-- What is shown of an account. -/
structure Shown where
  conversations : Conversations
  messagesMap : Text → Messages
  rawMessages : Text → Option MessageItem
  historyEnd : Text → Bool
  onlineStatus : Text → Option Nat

def Shown.empty : Shown where
  conversations := []
  messagesMap := fun _ => []
  rawMessages := fun _ => none
  historyEnd := fun _ => false
  onlineStatus := fun _ => none

/-- The store with what it reads. `retention` are the tombstones. -/
structure App (env : Env) where
  shown : Shown
  subscribedUserIDs : List Text
  sessionGeneration : Nat
  subscribed : Bool
  imUserId : Text
  activeConversationId : Text
  hiddenIds : List Text
  exitedGroupIds : List Text
  blockedPeerKeys : List Text
  placeholderSeq : Nat
  retention : World env.dateParses

variable {env : Env}

namespace App

/-- The smallest visible sequence number of a conversation. -/
def minSeq (app : App env) (id : Text) : Nat := app.retention.sync.minSeq id

def messages (app : App env) (id : Text) : Messages := app.shown.messagesMap id

def conversation (app : App env) (id : Text) : Option Conversation :=
  app.shown.conversations.find id

def setConversations (conversations : Conversations) (app : App env) : App env :=
  { app with shown := { app.shown with conversations } }

def patchConversation (id : Text) (edit : Conversation → Conversation) (app : App env) : App env :=
  app.setConversations (app.shown.conversations.patch id edit)

def isBlockedPeer (app : App env) (peerUserId : Text) : Bool :=
  peerUserId ≠ [] && app.blockedPeerKeys.contains (env.normalizePeerKey peerUserId)

def shouldShowConversation (app : App env) (conv : Conversation) : Bool :=
  !(app.hiddenIds.contains conv.id || app.exitedGroupIds.contains conv.id) &&
    !(!conv.isGroup && app.isBlockedPeer conv.peerUserId)

/-- The peer of a conversation, which need not be listed. -/
def peerUserIdOf (app : App env) (id : Text) : Text :=
  let listed := ((app.conversation id).map Conversation.peerUserId).getD []
  if listed = [] then env.peerIdFromSingleConversation id app.imUserId else listed

/-- A conversation of a blocked peer stays hidden. -/
def unhideConversation (id : Text) (app : App env) : App env :=
  if app.isBlockedPeer (app.peerUserIdOf id) then app
  else { app with hiddenIds := app.hiddenIds.filter (fun other => other ≠ id) }

def allowGroupConversation (id : Text) (app : App env) : App env :=
  if app.exitedGroupIds.contains id then
    { app with exitedGroupIds := app.exitedGroupIds.filter (fun other => other ≠ id) }
      |>.unhideConversation id
  else app

def decorate (app : App env) (conv : Conversation) : Conversation :=
  decorateConversation app.minSeq env.replaceLabel conv

/-- Rows of the SDK that are shown. -/
def incoming (app : App env) (items : List ConversationItem) : Conversations :=
  (items.map fun item => app.decorate (toConversation app.minSeq item)).filter
    app.shouldShowConversation

def upsertConversations (items : List ConversationItem) (app : App env) : App env :=
  if app.incoming items = [] then app
  else
    let merged := (app.incoming items).foldl
      (fun list conv => list.upsert app.minSeq app.activeConversationId conv)
      app.shown.conversations
    app.setConversations (merged.filter app.shouldShowConversation)

/-- The rows that `loadConversations` puts in the place of the old ones. -/
def replaceConversations (items : List ConversationItem) (app : App env) : App env :=
  let rows := items.map fun item =>
    let mapped := app.decorate (toConversation app.minSeq item)
    match app.conversation mapped.id with
    | some prev => keepNewerPreview app.minSeq app.activeConversationId prev mapped
    | none => mapped
  app.setConversations (rows.filter app.shouldShowConversation)

def applyContactRemarks (app : App env) : App env :=
  app.setConversations (app.shown.conversations.map app.decorate)

def filterConversations (app : App env) : App env :=
  app.setConversations (app.shown.conversations.filter app.shouldShowConversation)

def setMessages (id : Text) (list : Messages) (app : App env) : App env :=
  { app with shown := { app.shown with
      messagesMap := Function.update app.shown.messagesMap id list } }

def setHistoryEnd (id : Text) (historyEnd : Bool) (app : App env) : App env :=
  { app with shown := { app.shown with
      historyEnd := Function.update app.shown.historyEnd id historyEnd } }

def deleteRaw (ids : List MessageId) (app : App env) : App env :=
  { app with shown := { app.shown with
      rawMessages := fun id =>
        if ids.contains (.client id) then none else app.shown.rawMessages id } }

/-- Keeps few messages of the SDK of a conversation that is not open. -/
def trimRawMessagesWindow (id : Text) (app : App env) : App env :=
  let list := app.messages id
  if id = [] ∨ list.length ≤ 300 then app
  else
    let keepIds := Messages.ids (list.drop (list.length - 300))
    { app with shown := { app.shown with
        rawMessages := fun key =>
          (app.shown.rawMessages key).filter fun item =>
            item.conversationId ≠ id || keepIds.contains (.client key) } }

def rememberRaw (item : MessageItem) (app : App env) : App env :=
  if item.clientMsgID = [] ∨ removed (app.minSeq item.conversationId) item.seq = true then app
  else
    let app := { app with shown := { app.shown with
      rawMessages := Function.update app.shown.rawMessages item.clientMsgID (some item) } }
    if item.conversationId ≠ app.activeConversationId then
      app.trimRawMessagesWindow item.conversationId
    else app

def rememberAll (items : List MessageItem) (app : App env) : App env :=
  items.foldl (fun app item => app.rememberRaw item) app

/-- Keeps the latest messages of a conversation. -/
def trimMessageWindow (id : Text) (app : App env) : App env :=
  let list := app.messages id
  if list.length ≤ 200 then app
  else
    app.setMessages id (list.drop (list.length - 200))
      |>.deleteRaw (Messages.ids (list.take (list.length - 200)))
      |>.setHistoryEnd id false

def replaceMessage (id : Text) (tempId : MessageId) (message : ChatMessage) (app : App env) :
    App env :=
  app.setMessages id ((app.messages id).replaceMessage (app.minSeq id) tempId message)

def dropRevokedMessage (id clientMsgId tip : Text) (app : App env) : App env :=
  app.setMessages id ((app.messages id).dropRevokedMessage clientMsgId tip)

/-- Takes a receipt to every conversation that is loaded. -/
def markLoadedMessagesRead (msgIds : List Text) (app : App env) : App env :=
  { app with shown := { app.shown with
      messagesMap := fun id => (app.shown.messagesMap id).markLoadedMessagesRead msgIds } }

/-- `clearHistory` once the SDK has cleared. -/
def clearHistory (id : Text) (app : App env) : App env :=
  app.setMessages id []
    |>.setHistoryEnd id true
    |>.deleteRaw (app.messages id).ids
    |>.patchConversation id fun conv =>
      { conv with
        lastMessage := [], lastMessageAt := none, lastMessageSeq := 0, lastMessageId := none }

def removeExitedGroupConversation (id : Text) (app : App env) : App env :=
  let ids := (app.messages id).ids
  { app with
    hiddenIds := id :: app.hiddenIds
    exitedGroupIds := id :: app.exitedGroupIds
    shown := { app.shown with
      conversations := app.shown.conversations.filter (fun conv => conv.id ≠ id) } }
    |>.setMessages id []
    |>.setHistoryEnd id true
    |>.deleteRaw ids

def removeLocal (id : Text) (messageId : MessageId) (app : App env) : App env :=
  app.setMessages id ((app.messages id).removeLocal messageId) |>.deleteRaw [messageId]

def setOnlineStatus (states : List (Text × Nat)) (app : App env) : App env :=
  { app with shown := { app.shown with
      onlineStatus := states.foldl (fun online state =>
        Function.update online state.1 (some state.2)) app.shown.onlineStatus } }

/-- Takes what a boundary that moved on hides out of the store. -/
def pruneRetainedHistory (ids : List Text) (app : App env) : App env :=
  { app with shown := { app.shown with
      messagesMap := fun id =>
        if ids.contains id then (app.shown.messagesMap id).filterRemoved (app.minSeq id)
        else app.shown.messagesMap id
      rawMessages := fun id => (app.shown.rawMessages id).filter fun item =>
        !removed (app.minSeq item.conversationId) item.seq
      conversations := app.shown.conversations.map (sanitizeRetentionPreview app.minSeq) } }

/-- What the conversation is to its room. -/
def room (app : App env) (id : Text) : Room :=
  { Room.initial with list := app.messages id, historyEnd := app.shown.historyEnd id }

def setting (app : App env) (id : Text) : Setting where
  isGroup := (app.conversation id).any Conversation.isGroup
  minSeq := app.minSeq id
  mergeVideoContent := env.mergeVideoContent

def setRoom (id : Text) (room : Room) (app : App env) : App env :=
  app.setMessages id room.list |>.setHistoryEnd id room.historyEnd

def reset (app : App env) : App env :=
  { app with
    shown := .empty
    subscribedUserIDs := []
    sessionGeneration := app.sessionGeneration + 1
    subscribed := false }

/-- The session and the tombstones. -/
def frame (app : App env) : Nat × World env.dateParses := (app.sessionGeneration, app.retention)

variable (app : App env) (id : Text)

@[simp] theorem frame_setConversations (conversations : Conversations) :
    (app.setConversations conversations).frame = app.frame := rfl

@[simp] theorem frame_patchConversation (edit : Conversation → Conversation) :
    (app.patchConversation id edit).frame = app.frame := rfl

@[simp] theorem frame_unhideConversation : (app.unhideConversation id).frame = app.frame := by
  rw [unhideConversation]
  split <;> rfl

@[simp] theorem frame_allowGroupConversation :
    (app.allowGroupConversation id).frame = app.frame := by
  rw [allowGroupConversation]
  split
  · rw [frame_unhideConversation]
    rfl
  rfl

@[simp] theorem frame_upsertConversations (items : List ConversationItem) :
    (app.upsertConversations items).frame = app.frame := by
  rw [upsertConversations]
  split <;> rfl

@[simp] theorem frame_replaceConversations (items : List ConversationItem) :
    (app.replaceConversations items).frame = app.frame := rfl

@[simp] theorem frame_applyContactRemarks : app.applyContactRemarks.frame = app.frame := rfl

@[simp] theorem frame_filterConversations : app.filterConversations.frame = app.frame := rfl

@[simp] theorem frame_setMessages (list : Messages) :
    (app.setMessages id list).frame = app.frame := rfl

@[simp] theorem frame_setHistoryEnd (historyEnd : Bool) :
    (app.setHistoryEnd id historyEnd).frame = app.frame := rfl

@[simp] theorem frame_deleteRaw (ids : List MessageId) : (app.deleteRaw ids).frame = app.frame :=
  rfl

@[simp] theorem frame_trimRawMessagesWindow : (app.trimRawMessagesWindow id).frame = app.frame := by
  simp only [trimRawMessagesWindow]
  split <;> rfl

@[simp] theorem frame_rememberRaw (item : MessageItem) :
    (app.rememberRaw item).frame = app.frame := by
  simp only [rememberRaw]
  split
  · rfl
  split
  · rw [frame_trimRawMessagesWindow]
    rfl
  rfl

@[simp] theorem frame_rememberAll (items : List MessageItem) :
    (app.rememberAll items).frame = app.frame := by
  induction items generalizing app with
  | nil => rfl
  | cons item items ih => exact (ih _).trans (frame_rememberRaw app item)

@[simp] theorem frame_trimMessageWindow : (app.trimMessageWindow id).frame = app.frame := by
  simp only [trimMessageWindow]
  split <;> rfl

@[simp] theorem frame_replaceMessage (tempId : MessageId) (message : ChatMessage) :
    (app.replaceMessage id tempId message).frame = app.frame := rfl

@[simp] theorem frame_dropRevokedMessage (clientMsgId tip : Text) :
    (app.dropRevokedMessage id clientMsgId tip).frame = app.frame := rfl

@[simp] theorem frame_markLoadedMessagesRead (msgIds : List Text) :
    (app.markLoadedMessagesRead msgIds).frame = app.frame := rfl

@[simp] theorem frame_clearHistory : (app.clearHistory id).frame = app.frame := rfl

@[simp] theorem frame_removeExitedGroupConversation :
    (app.removeExitedGroupConversation id).frame = app.frame := rfl

@[simp] theorem frame_removeLocal (messageId : MessageId) :
    (app.removeLocal id messageId).frame = app.frame := rfl

@[simp] theorem frame_setOnlineStatus (states : List (Text × Nat)) :
    (app.setOnlineStatus states).frame = app.frame := rfl

@[simp] theorem frame_setRoom (room : Room) : (app.setRoom id room).frame = app.frame := rfl

theorem minSeq_of_frame {app next : App env} (h : next.frame = app.frame) :
    next.minSeq = app.minSeq := by
  have hretention : next.retention = app.retention := congrArg Prod.snd h
  funext id
  rw [minSeq, minSeq, hretention]

theorem generation_of_frame {app next : App env} (h : next.frame = app.frame) :
    next.sessionGeneration = app.sessionGeneration := congrArg Prod.fst h

end App

end ImApp.ChatStore
