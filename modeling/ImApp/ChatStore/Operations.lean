import ImApp.ChatStore.Store
import ImApp.Library.AsyncTasks

/-!
The operations of the chat store as pieces between their waits. What an operation
waits for comes from the SDK or the server and may take as long as it likes, while
events, other operations and a sign-out go on.
-/

namespace ImApp.ChatStore

open AsyncTasks (Program)
open ChatClient (World changedGroups accepted)
open JsonText (Text)
open StepSystem (Machine)

/-- Who loads the conversations. After a resume and after a sync of the server the
messages of the open conversation follow, after a sync even when loading failed. -/
inductive Reload where
  | plain
  | resume
  | refresh
  deriving DecidableEq

/-- What an operation waits for, with what it has captured. The waits of a send and
of the lookup of its sequence number know the session generation they started in. -/
inductive Await where
  | loginForConversations (reload : Reload)
  | conversationList (reload : Reload) (retried : Bool)
  | reconcile (reload : Reload) (list : List ConversationItem)
  | blacklist
  | remarkIndex
  | unsubscribeStatus (gone wanted : List Text)
  | subscribeStatus (ids : List Text)
  | queryStatus
  | loginToEnter (id : Text)
  | enterFind (id : Text)
  | enterOpen
  | checkAccess (id : Text)
  | findConversation (id : Text)
  | history (id : Text) (request : Request)
  | markRead (id : Text) (target : Option Text)
  | clearHistory (id : Text)
  | removeLocal (id : Text) (messageId : MessageId)
  | pinMessage (id : Text) (pinned : Option PinnedMessage) (incoming : Bool)
  | pinConversation (id : Text) (pinned : Bool)
  | imagePreview (id : Text) (send : Send)
  | sending (generation : Nat) (id : Text) (send : Send)
  | reappearing (generation : Nat) (id : Text) (send : Send) (delivered : ChatMessage)
  | reappeared (generation : Nat) (id : Text) (send : Send) (delivered : ChatMessage)
  | resolving (generation : Nat) (id : Text) (delivered : ChatMessage)
  | recallFind (id messageId tip : Text)
  | recallSeq (id messageId tip : Text)
  | recallServer (id messageId tip : Text)
  deriving DecidableEq

/-- A failure may tell that a group was left, and `relogin` that the SDK is signed
out. -/
inductive Answer where
  | done
  | failed (unavailable : Bool)
  | relogin
  | ids (ids : List Text)
  | conversations (list : List ConversationItem)
  | page (items : List MessageItem) (isEnd : Bool) (now : Nat)
  | statuses (states : List (Text × Nat))
  | preview (content : Text)
  | message (item : MessageItem)
  | seq (seq : Nat) (message : Option MessageItem)

inductive Event where
  | loadConversations (reload : Reload)
  | enterConversation (id : Text)
  | loadMessages (id : Text)
  | loadMoreMessages (id : Text)
  | locateMessage (id target : Text)
  | markAsRead (id : Text)
  | clearHistory (id : Text)
  | removeLocal (id : Text) (messageId : MessageId)
  | pinChatMessage (id : Text) (pinned : Option PinnedMessage)
  | togglePin (id : Text)
  | send (id : Text) (type : MessageType) (content : Text) (createdAt : Nat)
  | prepareOutgoingImage (id : Text) (content : Text) (createdAt : Nat)
  | deliverOutgoingImage (id : Text) (send : Send)
  | recallMessage (id messageId tip : Text)
  | refreshOnlineStatus
  | hideConversation (id : Text)
  | removeExitedGroupConversation (id : Text)
  | setActiveConversation (id : Text)
  | setUser (userId : Text) (hidden exited blocked : List Text)
  | receive (items : List MessageItem) (now : Nat)
  | conversationsChanged (items : List ConversationItem)
  | revoked (id clientMsgId tip : Text)
  | readReceipts (msgIds : List Text)
  | userStatus (state : Text × Nat)
  | subscribeRealtime
  | unsubscribeRealtime
  | retention (action : ChatClient.Action)

variable {env : Env}

/-- What runs up to the waits that follow. -/
abbrev Piece (env : Env) := App env × List Await

namespace App

def subscribeStep (app : App env) (wanted : List Text) : List Await :=
  let toSubscribe := wanted.filter (fun id => !app.subscribedUserIDs.contains id)
  if toSubscribe = [] then [.queryStatus] else [.subscribeStatus toSubscribe]

def refreshOnlineStatus (app : App env) : List Await :=
  let wanted := ((app.shown.conversations.filter fun conv =>
    !conv.isGroup && conv.peerUserId ≠ []).map Conversation.peerUserId).eraseDups
  if wanted = [] ∧ app.subscribedUserIDs = [] then []
  else
    let gone := app.subscribedUserIDs.filter (fun id => !wanted.contains id)
    if gone = [] then app.subscribeStep wanted else [.unsubscribeStatus gone wanted]

def loadMessages (app : App env) (id : Text) : List Await :=
  [.history id (.latest (app.messages id) none)]

/-- The messages of the open conversation, after its row. -/
def loadActive (app : App env) : List Await :=
  if app.activeConversationId = [] then [] else app.loadMessages app.activeConversationId

def conversationsFailed (app : App env) : Reload → List Await
  | .refresh => app.loadActive
  | _ => []

/-- Group conversations are checked for membership in the background. -/
def checkAccess (app : App env) (id : Text) : List Await :=
  if (app.conversation id).any Conversation.isGroup then [.checkAccess id] else []

def foundIn (list : List ConversationItem) (id : Text) : List ConversationItem :=
  (list.find? (fun item => item.conversationID = id)).toList

/-- The end of `appendMessage`. -/
def showMessage (item : MessageItem) (app : App env) : Piece env :=
  let message := item.toChatMessage
  let id := item.conversationId
  if (app.messages id).has message.id then (app, [])
  else
    let shown := app.setMessages id (app.messages id ++ [message])
    let trimmed := if id ≠ app.activeConversationId then shown.trimMessageWindow id else shown
    let viewing : Bool := app.activeConversationId ≠ [] && id = app.activeConversationId
    let patched := trimmed.patchConversation id fun conv =>
      { conv with
        lastMessage := previewOf message
        lastMessageAt := some message.createdAt
        lastMessageSeq := message.seq
        lastMessageId := some message.id
        unreadCount := if viewing || item.sendID = app.imUserId then 0
          else conv.unreadCount + if item.notification then 0 else 1 }
    (patched, if viewing then [.markRead id none] else [])

def peerOf (app : App env) (item : MessageItem) : Text :=
  if item.sendID = app.imUserId then item.recvID else item.sendID

/-- The pin that a message tells of. -/
def incomingPin (item : MessageItem) (now : Nat) : Option (Option PinnedMessage) :=
  if item.conversationId = [] then none
  else item.pin.map fun pin =>
    if pin.unpin then none else some ⟨.client pin.clientMsgID, true, now⟩

def appendMessage (now : Nat) (item : MessageItem) (app : App env) : Piece env :=
  let id := item.conversationId
  if item.clientMsgID = [] ∨ removed (app.minSeq id) item.seq = true ∨
      app.exitedGroupIds.contains id = true then (app, [])
  else
    let app := app.rememberRaw item
    match incomingPin item now with
    | some pinned => (app, [.pinMessage id pinned true])
    | none =>
      if id = [] then (app, [])
      else if app.hiddenIds.contains id then
        if item.dissolved || item.notification || app.isBlockedPeer (app.peerOf item) then
          (app, [])
        else
          let app := app.unhideConversation id
          let found := if (app.conversation id).isSome then [] else [.findConversation id]
          let (app, follows) := app.showMessage item
          (app, found ++ follows)
      else app.showMessage item

/-- Messages are taken in one after the other. -/
def ingestIncoming (now : Nat) (app : App env) : List MessageItem → Piece env
  | [] => (app, [])
  | item :: items => let (app, first) := app.appendMessage now item
    let (app, rest) := app.ingestIncoming now items
    (app, first ++ rest)

/-- A page arrives. `getHistoryMessages` leaves out what is not visible. -/
def loaded (id : Text) (request : Request) (items : List MessageItem) (isEnd : Bool) (now : Nat)
    (app : App env) : Piece env :=
  let page := items.filter (fun item => !removed (app.minSeq id) item.seq)
  let isEnd := isEnd || page.length < items.length
  let app := app.rememberAll page
  let (room, next) := (app.room id).answer (app.setting id) now page isEnd request
  let answered := app.setRoom id room
  let mapped := Messages.mapped (app.minSeq id) page
  match request with
  | .latest existing target =>
    let skipped := mapped.isEmpty && !(existing.filterRemoved (app.minSeq id)).isEmpty
    (if skipped then answered else answered.trimMessageWindow id, [.markRead id target])
  | .locating list target _ =>
    -- the messages before the target leave the list
    let dropped := if !page.isEmpty && room.list.has (.client target) then
        (Messages.ids (mapped ++ list)).filter (fun messageId =>
          !room.list.ids.contains messageId)
      else []
    (answered.deleteRaw dropped, next.toList.map (.history id))
  | _ => (answered, next.toList.map (.history id))

/-- The conversation is marked read, whether the SDK could or not. -/
def markedRead (id : Text) (target : Option Text) (app : App env) : Piece env :=
  let app := app.patchConversation id fun conv => { conv with unreadCount := 0 }
  let next := target.bind fun target => (app.room id).locateFrom target
  (app, next.toList.map (.history id))

def insertPlaceholder (id : Text) (type : MessageType) (content : Text) (createdAt : Nat)
    (stage : Stage) (app : App env) : App env × Send :=
  let send : Send := ⟨app.placeholderSeq + 1, type, content, createdAt, stage⟩
  ({ app with placeholderSeq := app.placeholderSeq + 1 }
    |>.setMessages id (app.messages id ++ [send.placeholder .sending]), send)

/-- The `catch` of a send. -/
def sendFailed (id : Text) (send : Send) (unavailable : Bool) (app : App env) : Piece env :=
  let app := app.replaceMessage id (.placeholder send.serial) (send.placeholder .failed)
  (if unavailable then app.removeExitedGroupConversation id else app, [])

/-- What the SDK sent takes the place of the placeholder. -/
def sent (generation : Nat) (id : Text) (send : Send) (item : MessageItem) (app : App env) :
    Piece env :=
  let app := app.rememberRaw item
  match app.conversation id with
  | none => app.sendFailed id send false
  | some _ =>
    let delivered := Room.deliveredMessage (app.setting id) send item
    let app := app.replaceMessage id (.placeholder send.serial) delivered
    if app.exitedGroupIds.contains id then app.sendFailed id send true
    else if app.hiddenIds.contains id then
      let app := app.unhideConversation id
      if (app.conversation id).isSome then (app, [.reappeared generation id send delivered])
      else (app, [.reappearing generation id send delivered])
    else (app, [.reappeared generation id send delivered])

/-- The preview is that of a later message. -/
def newerPreview (current : Conversation) (delivered : ChatMessage) : Bool :=
  current.lastMessage ≠ [] &&
    ((current.lastMessageSeq ≠ 0 && delivered.seq ≠ 0 && delivered.seq < current.lastMessageSeq) ||
      delivered.createdAt < current.lastMessageAt.getD 0)

/-- The message becomes the preview, unless that is newer. -/
def previewSent (id : Text) (delivered : ChatMessage) (app : App env) : App env :=
  app.patchConversation id fun current =>
    if newerPreview current delivered then current
    else sanitizeRetentionPreview app.minSeq { current with
        lastMessage := previewOf delivered
        lastMessageAt := some delivered.createdAt
        lastMessageSeq := delivered.seq
        lastMessageId := some delivered.id }

def reappeared (generation : Nat) (id : Text) (send : Send) (delivered : ChatMessage)
    (app : App env) : Piece env :=
  match app.conversation id with
  | none => app.sendFailed id send false
  | some _ =>
    (app.previewSent id delivered,
      if (app.setting id).isGroup && delivered.seq = 0 then [.resolving generation id delivered]
      else [])

/-- The number of a sent message is found. -/
def resolved (id : Text) (delivered : ChatMessage) (seq : Nat) (message : Option MessageItem)
    (app : App env) : App env :=
  if seq = 0 || !(app.messages id).has delivered.id then app
  else
    let current := match delivered.id with
      | .client key => app.shown.rawMessages key
      | .placeholder _ => none
    let remembered :=
      if removed (app.minSeq id) seq then app.deleteRaw [delivered.id]
      else match message.or current with
        | some item => app.rememberRaw { item with seq }
        | none => app
    let replaced := remembered.replaceMessage id delivered.id
      { delivered with seq, trackGroupRead := true }
    replaced.patchConversation id fun conv =>
      if conv.lastMessageId = some delivered.id then
        sanitizeRetentionPreview app.minSeq { conv with lastMessageSeq := seq }
      else conv

/-- The groups whose boundary an answer moves on. -/
def changedBy (world : World env.dateParses) : ChatClient.Action → List Text
  | .answer index reply _ => match world.tasks[index]? with
    | none => []
    | some task => if task.generation ≠ world.sync.generation then []
      else match accepted task.ids reply with
        | none => []
        | some rows => changedGroups world.sync.states rows
  | _ => []

/-- The store listens to the tombstones while it is subscribed. -/
def retain (action : ChatClient.Action) (app : App env) : Option (App env) :=
  match action with
  | .restart => none
  | action => (ChatClient.step app.retention action).map fun world =>
    let changed := changedBy app.retention action
    let next := { app with retention := world }
    if app.subscribed && !changed.isEmpty then next.pruneRetainedHistory changed else next

def whenSubscribed (app : App env) (piece : Piece env) : Option (Piece env) :=
  if app.subscribed then some piece else none

def start (event : Event) (app : App env) : Option (Piece env) :=
  match event with
  | .loadConversations reload => some (app, [.loginForConversations reload])
  | .enterConversation id => some (app, [.loginToEnter id])
  | .loadMessages id => some (app, app.loadMessages id)
  | .loadMoreMessages id =>
    if app.shown.historyEnd id || (app.messages id).isEmpty then some (app, [])
    else some (app, [.history id (.older (app.messages id))])
  | .locateMessage id target =>
    if id = [] ∨ target = [] then some (app, [])
    else if (app.messages id).isEmpty then
      some (app, [.history id (.latest [] (some target))])
    else some (app, (((app.room id).locateFrom target).toList.map (.history id)))
  | .markAsRead id => some (app, [.markRead id none])
  | .clearHistory id => some (app, [.clearHistory id])
  | .removeLocal id messageId => some (app, [.removeLocal id messageId])
  | .pinChatMessage id pinned => some (app, [.pinMessage id pinned false])
  | .togglePin id =>
    (app.conversation id).map fun conv =>
      (app.patchConversation id fun row => { row with pinned := !conv.pinned },
        [.pinConversation id (!conv.pinned)])
  | .send id type content createdAt =>
    (app.conversation id).map fun _ =>
      let (app, send) := app.insertPlaceholder id type content createdAt .sending
      (app, [.sending app.sessionGeneration id send])
  | .prepareOutgoingImage id content createdAt =>
    (app.conversation id).map fun _ =>
      ((app.insertPlaceholder id .image content createdAt .prepared).1, [])
  | .deliverOutgoingImage id send => some (app, [.imagePreview id send])
  | .recallMessage id messageId tip =>
    some (app, if (app.conversation id).isSome then [.recallSeq id messageId tip]
      else [.recallFind id messageId tip])
  | .refreshOnlineStatus => some (app, app.refreshOnlineStatus)
  | .hideConversation id =>
    some ({ app with hiddenIds := id :: app.hiddenIds }.setConversations
      (app.shown.conversations.filter (fun conv => conv.id ≠ id)), [])
  | .removeExitedGroupConversation id => some (app.removeExitedGroupConversation id, [])
  | .setActiveConversation id => some ({ app with activeConversationId := id }, [])
  | .setUser userId hidden exited blocked =>
    some (({ app with
      imUserId := userId
      hiddenIds := hidden
      exitedGroupIds := exited
      blockedPeerKeys := blocked }).filterConversations, [])
  | .receive items now => app.whenSubscribed (app.ingestIncoming now items)
  | .conversationsChanged items => app.whenSubscribed (app.upsertConversations items, [])
  | .revoked id clientMsgId tip =>
    app.whenSubscribed (app.dropRevokedMessage id clientMsgId tip, [])
  | .readReceipts msgIds => app.whenSubscribed (app.markLoadedMessagesRead msgIds, [])
  | .userStatus state => app.whenSubscribed (app.setOnlineStatus [state], [])
  | .subscribeRealtime => some ({ app with subscribed := true }, [])
  | .unsubscribeRealtime => some ({ app with subscribed := false }, [])
  | .retention action => (app.retain action).map fun app => (app, [])

def conversationsLogin (reload : Reload) (answer : Answer) (app : App env) : Option (Piece env) :=
  match answer with
  | .done => some ({ app with subscribed := true }, [.blacklist, .conversationList reload false])
  | .failed _ => some (app, app.conversationsFailed reload)
  | _ => none

def conversationsListed (reload : Reload) (retried : Bool) (answer : Answer) (app : App env) :
    Option (Piece env) :=
  match answer with
  | .conversations list => some (app, [.reconcile reload list])
  | .relogin => if retried then none else some (app, [.blacklist, .conversationList reload true])
  | .failed _ => some (app, app.conversationsFailed reload)
  | _ => none

/-- The groups of the list that were left and let the user in again are shown. -/
def allowGroups (list : List ConversationItem) (members : List Text) (app : App env) : App env :=
  (members.filter fun id => list.any fun item => item.isGroup && item.conversationID = id).foldl
    (fun app id => app.allowGroupConversation id) app

def reconciled (reload : Reload) (list : List ConversationItem) (answer : Answer)
    (app : App env) : Option (Piece env) :=
  match answer with
  | .ids members =>
    let app := (app.allowGroups list members).replaceConversations list
    some (app, app.refreshOnlineStatus ++ .remarkIndex ::
      if reload = .plain then [] else app.loadActive)
  | _ => none

def setBlacklist (keys : List Text) (app : App env) : App env :=
  let app := { app with blockedPeerKeys := keys }
  if keys = [] then app else app.filterConversations

def blacklistFetched (answer : Answer) (app : App env) : Option (Piece env) :=
  match answer with
  | .ids keys => some (app.setBlacklist keys, [])
  | .failed _ => some (app, [])
  | _ => none

def remarksIndexed (answer : Answer) (app : App env) : Option (Piece env) :=
  match answer with
  | .done => some (app.applyContactRemarks, [])
  | .failed _ => some (app, [])
  | _ => none

def statusUnsubscribed (gone wanted : List Text) (app : App env) : Piece env :=
  let app := { app with
    subscribedUserIDs := app.subscribedUserIDs.filter (fun id => !gone.contains id) }
  (app, app.subscribeStep wanted)

def statusSubscribed (ids : List Text) (answer : Answer) (app : App env) : Option (Piece env) :=
  let subscribed := { app with subscribedUserIDs := app.subscribedUserIDs ++ ids }
  match answer with
  | .statuses states => some (subscribed.setOnlineStatus states, [.queryStatus])
  | .failed _ => some (subscribed, [.queryStatus])
  | _ => none

def statusQueried (answer : Answer) (app : App env) : Option (Piece env) :=
  match answer with
  | .statuses states => some (app.setOnlineStatus states, [])
  | .failed _ => some (app, [])
  | _ => none

def enterLogin (id : Text) (answer : Answer) (app : App env) : Option (Piece env) :=
  match answer with
  | .done =>
    let app := { app with subscribed := true }
    if (app.conversation id).isSome then some (app.unhideConversation id, app.checkAccess id)
    else some (app, [.enterFind id])
  | .failed _ => some (app, [])
  | _ => none

def enterFound (id : Text) (answer : Answer) (app : App env) : Option (Piece env) :=
  match answer with
  | .conversations list =>
    if foundIn list id = [] then some (app, [.enterOpen])
    else
      let app := (app.unhideConversation id).upsertConversations (foundIn list id)
      some (app, app.checkAccess id)
  | .failed _ => some (app, [])
  | _ => none

def enterOpened (answer : Answer) (app : App env) : Option (Piece env) :=
  match answer with
  | .conversations found =>
    some ((app.allowGroups found (found.map ConversationItem.conversationID)).upsertConversations
      found, [])
  | .failed _ => some (app, [])
  | _ => none

def accessChecked (id : Text) (answer : Answer) (app : App env) : Option (Piece env) :=
  match answer with
  | .done => some (app.allowGroupConversation id, [])
  | .failed unavailable =>
    some (if unavailable then app.removeExitedGroupConversation id else app, [])
  | _ => none

def conversationFound (id : Text) (answer : Answer) (app : App env) : Option (Piece env) :=
  match answer with
  | .conversations list => some (app.upsertConversations (foundIn list id), [])
  | .failed _ => some (app, [])
  | _ => none

def historyAnswered (id : Text) (request : Request) (answer : Answer) (app : App env) :
    Option (Piece env) :=
  match answer with
  | .page items isEnd now => some (app.loaded id request items isEnd now)
  | .failed _ => some (app, [])
  | _ => none

def historyCleared (id : Text) (answer : Answer) (app : App env) : Option (Piece env) :=
  match answer with
  | .done => some (app.clearHistory id, [])
  | .failed _ => some (app, [])
  | _ => none

def setPinnedMessage (id : Text) (pinned : Option PinnedMessage) (app : App env) : App env :=
  app.patchConversation id fun conv => { conv with pinnedMessage := pinned }

/-- A pin that came with a message is shown even when the SDK could not store it. -/
def messagePinned (id : Text) (pinned : Option PinnedMessage) (incoming : Bool)
    (answer : Answer) (app : App env) : Option (Piece env) :=
  match answer with
  | .done => some (app.setPinnedMessage id pinned, [])
  | .failed _ => some (if incoming then app.setPinnedMessage id pinned else app, [])
  | _ => none

def conversationPinned (id : Text) (pinned : Bool) (answer : Answer) (app : App env) :
    Option (Piece env) :=
  match answer with
  | .done => some (app, [])
  | .failed _ =>
    some (app.patchConversation id fun conv => { conv with pinned := !pinned }, [])
  | _ => none

def showPreview (id : Text) (send : Send) (content : Text) (app : App env) : App env :=
  if content ≠ send.content then
    app.replaceMessage id (.placeholder send.serial)
      (({ send with content } : Send).placeholder .sending)
  else app

/-- The send of an image takes the session of the moment at which its preview is
there. -/
def imagePreviewed (id : Text) (send : Send) (answer : Answer) (app : App env) :
    Option (Piece env) :=
  match answer with
  | .preview content =>
    let app := app.showPreview id send content
    some (app, if (app.conversation id).isSome then
      [.sending app.sessionGeneration id { send with content }] else [])
  | _ => none

def sendAnswered (generation : Nat) (id : Text) (send : Send) (answer : Answer)
    (app : App env) : Option (Piece env) :=
  match answer with
  | .message item =>
    if generation ≠ app.sessionGeneration then some (app, [])
    else some (app.sent generation id send item)
  | .failed unavailable =>
    if generation ≠ app.sessionGeneration then some (app, [])
    else some (app.sendFailed id send unavailable)
  | _ => none

def conversationReappeared (generation : Nat) (id : Text) (send : Send)
    (delivered : ChatMessage) (answer : Answer) (app : App env) : Option (Piece env) :=
  match answer with
  | .conversations list =>
    some (app.upsertConversations (foundIn list id), [.reappeared generation id send delivered])
  | .failed _ => some (app, [.reappeared generation id send delivered])
  | _ => none

def sendReappeared (generation : Nat) (id : Text) (send : Send) (delivered : ChatMessage)
    (answer : Answer) (app : App env) : Option (Piece env) :=
  match answer with
  | .done =>
    if generation ≠ app.sessionGeneration then some (app, [])
    else some (app.reappeared generation id send delivered)
  | _ => none

def seqResolved (generation : Nat) (id : Text) (delivered : ChatMessage) (answer : Answer)
    (app : App env) : Option (Piece env) :=
  match answer with
  | .seq seq message =>
    if generation ≠ app.sessionGeneration then some (app, [])
    else some (app.resolved id delivered seq message, [])
  | .failed _ => some (app, [])
  | _ => none

def recallFound (id messageId tip : Text) (answer : Answer) (app : App env) : Option (Piece env) :=
  match answer with
  | .conversations list =>
    if foundIn list id = [] then some (app, [])
    else some (app.upsertConversations (foundIn list id), [.recallSeq id messageId tip])
  | .failed _ => some (app, [])
  | _ => none

def recallResolved (id messageId tip : Text) (answer : Answer) (app : App env) :
    Option (Piece env) :=
  match answer with
  | .seq seq message =>
    some (app.rememberAll message.toList, if seq = 0 then [] else [.recallServer id messageId tip])
  | .failed _ => some (app, [])
  | _ => none

def recalled (id messageId tip : Text) (answer : Answer) (app : App env) : Option (Piece env) :=
  match answer with
  | .done => some (app.dropRevokedMessage id messageId tip, [])
  | .failed _ => some (app, [])
  | _ => none

def localRemoved (id : Text) (messageId : MessageId) (app : App env) : Piece env :=
  (app.removeLocal id messageId, [])

/-- Where success and failure go on alike. -/
def settled (piece : App env → Piece env) (answer : Answer) (app : App env) : Option (Piece env) :=
  match answer with
  | .done => some (piece app)
  | .failed _ => some (piece app)
  | _ => none

def resume : Await → Answer → App env → Option (Piece env)
  | .loginForConversations reload => conversationsLogin reload
  | .conversationList reload retried => conversationsListed reload retried
  | .reconcile reload list => reconciled reload list
  | .blacklist => blacklistFetched
  | .remarkIndex => remarksIndexed
  | .unsubscribeStatus gone wanted => settled (statusUnsubscribed gone wanted)
  | .subscribeStatus ids => statusSubscribed ids
  | .queryStatus => statusQueried
  | .loginToEnter id => enterLogin id
  | .enterFind id => enterFound id
  | .enterOpen => enterOpened
  | .checkAccess id => accessChecked id
  | .findConversation id => conversationFound id
  | .history id request => historyAnswered id request
  | .markRead id target => settled (markedRead id target)
  | .clearHistory id => historyCleared id
  | .removeLocal id messageId => settled (localRemoved id messageId)
  | .pinMessage id pinned incoming => messagePinned id pinned incoming
  | .pinConversation id pinned => conversationPinned id pinned
  | .imagePreview id send => imagePreviewed id send
  | .sending generation id send => sendAnswered generation id send
  | .reappearing generation id send delivered => conversationReappeared generation id send delivered
  | .reappeared generation id send delivered => sendReappeared generation id send delivered
  | .resolving generation id delivered => seqResolved generation id delivered
  | .recallFind id messageId tip => recallFound id messageId tip
  | .recallSeq id messageId tip => recallResolved id messageId tip
  | .recallServer id messageId tip => recalled id messageId tip

theorem settled_eq {next : App env → Piece env} {answer : Answer} {app : App env}
    {piece : Piece env} (h : App.settled next answer app = some piece) : piece = next app := by
  cases answer with
  | done | failed unavailable => exact (Option.some.inj h).symm
  | _ => cases h

variable (app : App env) (id : Text)

@[simp] theorem frame_showMessage (item : MessageItem) :
    (app.showMessage item).1.frame = app.frame := by
  simp only [showMessage]
  split
  · rfl
  rw [frame_patchConversation]
  split
  · rw [frame_trimMessageWindow, frame_setMessages]
  rfl

@[simp] theorem frame_appendMessage (now : Nat) (item : MessageItem) :
    (app.appendMessage now item).1.frame = app.frame := by
  simp only [appendMessage]
  split
  · rfl
  split
  · exact frame_rememberRaw app item
  split
  · exact frame_rememberRaw app item
  split
  · split
    · exact frame_rememberRaw app item
    rw [frame_showMessage, frame_unhideConversation, frame_rememberRaw]
  rw [frame_showMessage, frame_rememberRaw]

@[simp] theorem frame_ingestIncoming (now : Nat) (items : List MessageItem) :
    (app.ingestIncoming now items).1.frame = app.frame := by
  induction items generalizing app with
  | nil => rfl
  | cons item items ih => exact (ih _).trans (frame_appendMessage app now item)

@[simp] theorem frame_loaded (request : Request) (items : List MessageItem) (isEnd : Bool)
    (now : Nat) : (app.loaded id request items isEnd now).1.frame = app.frame := by
  simp only [loaded]
  cases request with
  | latest existing target =>
    simp only
    split <;> simp
  | older list | locating list target pages | opened target => simp

@[simp] theorem frame_markedRead (target : Option Text) :
    (app.markedRead id target).1.frame = app.frame := rfl

@[simp] theorem frame_sendFailed (send : Send) (unavailable : Bool) :
    (app.sendFailed id send unavailable).1.frame = app.frame := by
  cases unavailable <;> rfl

@[simp] theorem frame_sent (generation : Nat) (send : Send) (item : MessageItem) :
    (app.sent generation id send item).1.frame = app.frame := by
  simp only [sent]
  split
  · simp
  split
  · simp
  split
  · split <;> simp
  simp

@[simp] theorem frame_previewSent (delivered : ChatMessage) :
    (app.previewSent id delivered).frame = app.frame := rfl

@[simp] theorem frame_reappeared (generation : Nat) (send : Send) (delivered : ChatMessage) :
    (app.reappeared generation id send delivered).1.frame = app.frame := by
  simp only [reappeared]
  split <;> simp

@[simp] theorem frame_allowGroups (list : List ConversationItem) (members : List Text) :
    (app.allowGroups list members).frame = app.frame := by
  rw [allowGroups]
  induction members.filter _ generalizing app with
  | nil => rfl
  | cons member members ih => exact (ih _).trans (frame_allowGroupConversation app member)

@[simp] theorem frame_setBlacklist (keys : List Text) :
    (app.setBlacklist keys).frame = app.frame := by
  simp only [setBlacklist]
  split <;> rfl

@[simp] theorem frame_showPreview (send : Send) (content : Text) :
    (app.showPreview id send content).frame = app.frame := by
  rw [showPreview]
  split <;> rfl

@[simp] theorem frame_setPinnedMessage (pinned : Option PinnedMessage) :
    (app.setPinnedMessage id pinned).frame = app.frame := rfl

@[simp] theorem frame_resolved (delivered : ChatMessage) (seq : Nat)
    (message : Option MessageItem) : (app.resolved id delivered seq message).frame = app.frame := by
  simp only [resolved]
  split
  · rfl
  rw [frame_patchConversation, frame_replaceMessage]
  split
  · rfl
  split
  · simp
  rfl

end App

def program (env : Env) : Program (App env) Await Event Answer where
  start := App.start
  resume := App.resume
  endSession := App.reset

/-- A store that shows nothing yet. -/
def Fresh (app : App env) : Prop := app.shown = .empty

def storeMachine (env : Env) :
    Machine (AsyncTasks.State (App env) Await) (AsyncTasks.Action Await Event Answer) :=
  AsyncTasks.machine (program env) Fresh

end ImApp.ChatStore
