import ImApp.ChatStore.Messages
import ImApp.Library.StepSystem

/-!
One conversation of the chat store. Its list changes with every event and every
send, while each request for history has captured the list when it started and
puts back what it makes of it when its page arrives.
-/

namespace ImApp.ChatStore

open JsonText (Text)
open StepSystem

/-- What does not change of the conversation. `minSeq` is its smallest visible
sequence number. -/
structure Setting where
  isGroup : Bool
  minSeq : Nat
  mergeVideoContent : Text → Text → Text

/-- Changes of the list: messages that were put in, messages that were taken out,
messages that were revoked, with the text in their place, and messages that were
marked read. -/
structure Changes where
  shown : List MessageId
  gone : List MessageId
  revoked : List (Text × Text)
  read : List Text

namespace Changes

def none : Changes := ⟨[], [], [], []⟩

/-- A change replaces the earlier ones that it contradicts. It is noted only when
it is `tracked`. -/
def show_ (tracked : Bool) (id : MessageId) (changes : Changes) : Changes :=
  { changes with
    shown := if tracked then id :: changes.shown else changes.shown
    gone := changes.gone.filter (fun other => other ≠ id) }

def remove (tracked : Bool) (ids : List MessageId) (changes : Changes) : Changes where
  shown := changes.shown.filter (fun id => !ids.contains id)
  gone := if tracked then ids ++ changes.gone else changes.gone
  revoked := changes.revoked.filter (fun entry => !ids.contains (.client entry.1))
  read := changes.read.filter (fun id => !ids.contains (.client id))

def revoke (tracked : Bool) (id tip : Text) (changes : Changes) : Changes :=
  let others := changes.revoked.filter (fun entry => entry.1 ≠ id)
  { changes with revoked := if tracked then (id, tip) :: others else others }

def markRead (tracked : Bool) (ids : List Text) (changes : Changes) : Changes :=
  { changes with read := if tracked then ids ++ changes.read else changes.read }

end Changes

/-- A request for a page of history, with the list it captured. `latest` is that of
`loadMessages`, which `locateMessage` may have called, `older` that of
`loadMoreMessages`, and `locating` one of the pages of `locateMessage`, which asks
for `pages` more of them. `opened` is the stage at which `locateMessage` has loaded
the conversation and waits until it is marked read. -/
inductive Request where
  | latest (existing : Messages) (target : Option Text)
  | older (list : Messages)
  | locating (list : Messages) (target : Text) (pages : Nat)
  | opened (target : Text)
  deriving DecidableEq

def Request.captured : Request → Messages
  | .latest existing _ => existing
  | .older list => list
  | .locating list _ _ => list
  | .opened _ => []

/-- The stages of a send: an image that is still being prepared, a message that is
with the SDK, one whose conversation has yet to reappear, one whose sequence
number is being looked up, and the end. -/
inductive Stage where
  | prepared
  | sending
  | delivered (message : ChatMessage)
  | resolving (message : ChatMessage)
  | settled (message : ChatMessage)
  | failed
  deriving DecidableEq

structure Send where
  serial : Nat
  type : MessageType
  content : Text
  createdAt : Nat
  stage : Stage
  deriving DecidableEq

def Send.placeholder (send : Send) (status : MessageStatus) : ChatMessage where
  id := .placeholder send.serial
  type := send.type
  content := send.content
  createdAt := send.createdAt
  hasRead := false
  seq := 0
  trackGroupRead := false
  status

/-- The message that took the place of the placeholder. -/
def Send.message (send : Send) : Option ChatMessage :=
  match send.stage with
  | .delivered message => some message
  | .resolving message => some message
  | .settled message => some message
  | _ => none

/-- `recent` are the changes made while requests were under way, since a request
started with none before it. `deleted` are the messages that the user deleted and
that did not come back. -/
structure Room where
  list : Messages
  historyEnd : Bool
  placeholderSeq : Nat
  requests : List Request
  sends : List Send
  recent : Changes
  deleted : List MessageId

namespace Room

def inFlight (s : Room) : Bool := !s.requests.isEmpty

/-- `appendMessage`, of a message of a conversation that is neither hidden nor left. -/
def receive (setting : Setting) (item : MessageItem) (s : Room) : Room :=
  if removed setting.minSeq item.seq || item.pin.isSome || s.list.has (.client item.clientMsgID) then s
  else { s with
    list := s.list.appendMessage item.toChatMessage
    recent := s.recent.show_ s.inFlight (.client item.clientMsgID)
    deleted := s.deleted.filter (fun id => id ≠ .client item.clientMsgID) }

/-- A revocation that was notified, or the end of a recall of one's own. -/
def dropRevokedMessage (clientMsgId tip : Text) (s : Room) : Room :=
  if s.list.has (.client clientMsgId) then
    { s with
      list := s.list.dropRevokedMessage clientMsgId tip
      recent := s.recent.revoke s.inFlight clientMsgId tip }
  else s

def ingestReadReceipts (msgIds : List Text) (s : Room) : Room :=
  { s with
    list := s.list.markLoadedMessagesRead msgIds
    recent := s.recent.markRead s.inFlight (msgIds.filter (fun id => s.list.has (.client id))) }

def removeLocal (id : MessageId) (s : Room) : Room :=
  { s with
    list := s.list.removeLocal id
    recent := s.recent.remove s.inFlight [id]
    deleted := id :: s.deleted }

/-- `clearHistory` once the SDK has cleared, and `removeExitedGroupConversation`. -/
def clearHistory (s : Room) : Room :=
  { s with
    list := []
    historyEnd := true
    recent := s.recent.remove s.inFlight s.list.ids
    deleted := s.list.ids ++ s.deleted }

/-- Notes that a request is made. -/
def request (request : Request) (s : Room) : Room :=
  { s with
    requests := s.requests ++ [request]
    recent := if s.inFlight then s.recent else .none }

def loadMessages (s : Room) : Room := s.request (.latest s.list none)

def loadMoreMessages (s : Room) : Room :=
  if s.historyEnd || s.list.isEmpty then s else s.request (.older s.list)

/-- The next page that `locateMessage` asks for, when it goes on. -/
def nextPage (s : Room) (target : Text) : Nat → Option Request
  | 0 => none
  | pages + 1 =>
    if s.historyEnd || s.list.isEmpty then none else some (.locating s.list target pages)

def maxPages : Nat := 20

/-- The part of `locateMessage` after the conversation is loaded. -/
def locateFrom (s : Room) (target : Text) : Option Request :=
  if s.list.has (.client target) then none else s.nextPage target maxPages

def locateMessage (target : Text) (s : Room) : Room :=
  if target = [] then s
  else if s.list.isEmpty then s.request (.latest s.list (some target))
  else match s.locateFrom target with
    | none => s
    | some next => s.request next

/-- A page arrives. Gives the new state and the request that follows. -/
def answer (setting : Setting) (now : Nat) (page : List MessageItem) (isEnd : Bool) (s : Room) :
    Request → Room × Option Request
  | .latest existing target => let existing := existing.filterRemoved setting.minSeq
    let mapped := Messages.mapped setting.minSeq page
    if mapped = [] ∧ existing ≠ [] then ({ s with historyEnd := false }, target.map .opened)
    else
      let merged := Messages.mergeLocalPending now (Messages.withRead existing mapped) existing
      ({ s with list := merged.filterRemoved setting.minSeq, historyEnd := isEnd },
        target.map .opened)
  | .older list =>
    let older := Messages.mapped setting.minSeq page
    if older = [] then ({ s with historyEnd := isEnd }, none)
    else
      ({ s with
        list := Messages.filterRemoved setting.minSeq (older ++ list), historyEnd := isEnd }, none)
  | .locating list target pages =>
    if page = [] then ({ s with historyEnd := isEnd }, none)
    else
      let older := Messages.mapped setting.minSeq page
      let merged := Messages.filterRemoved setting.minSeq (older ++ list)
      if merged.has (.client target) then
        ({ s with
          list := merged.retainFromMessage target
          historyEnd := isEnd && merged.head?.any (fun m => m.id = .client target) }, none)
      else
        let s := { s with list := merged, historyEnd := isEnd }
        (s, if isEnd || 500 < merged.length then none else s.nextPage target pages)
  | .opened target => (s, s.locateFrom target)

/-- The request has been answered. -/
def finish (index : Nat) (next : Option Request) (s : Room) : Room :=
  { s with requests :=
      match next with
      | none => s.requests.eraseIdx index
      | some request => s.requests.set index request }

def insertPlaceholder (type : MessageType) (content : Text) (createdAt : Nat) (stage : Stage)
    (s : Room) : Room :=
  let send : Send := ⟨s.placeholderSeq + 1, type, content, createdAt, stage⟩
  { s with
    placeholderSeq := s.placeholderSeq + 1
    sends := s.sends ++ [send]
    list := s.list ++ [send.placeholder .sending]
    recent := s.recent.show_ s.inFlight (.placeholder send.serial) }

def setStage (index : Nat) (send : Send) (stage : Stage) (s : Room) : Room :=
  { s with sends := s.sends.set index { send with stage } }

def replaceMessage (setting : Setting) (tempId : MessageId) (message : ChatMessage) (s : Room) :
    Room :=
  { s with
    list := s.list.replaceMessage setting.minSeq tempId message
    recent := (if tempId = message.id then s.recent
      else s.recent.remove s.inFlight [tempId]).show_ s.inFlight message.id
    deleted := s.deleted.filter (fun id => id ≠ message.id) }

/-- The preview of an image is there. The conversation may be gone by now, and
then the image is not sent. -/
def deliverOutgoingImage (setting : Setting) (index : Nat) (send : Send) (preview : Text)
    (listed : Bool) (s : Room) : Room :=
  let shown := { send with content := preview }
  let s := if preview ≠ send.content then
      s.replaceMessage setting (.placeholder send.serial) (shown.placeholder .sending)
    else s
  s.setStage index shown (if listed then .sending else .failed)

/-- The message as it is shown once it is sent. -/
def deliveredMessage (setting : Setting) (send : Send) (item : MessageItem) : ChatMessage :=
  let covered :=
    withCover setting.mergeVideoContent (send.placeholder .sending) item.toChatMessage
  if setting.isGroup then { covered with trackGroupRead := true } else covered

def sent (setting : Setting) (index : Nat) (send : Send) (item : MessageItem) (s : Room) : Room :=
  let delivered := deliveredMessage setting send item
  (s.replaceMessage setting (.placeholder send.serial) delivered).setStage index send
    (.delivered delivered)

/-- The send fails, or what follows it. A group that turns out to be left loses
its messages. -/
def sendFailed (setting : Setting) (index : Nat) (send : Send) (unavailable : Bool) (s : Room) :
    Room :=
  let s := (s.setStage index send .failed).replaceMessage setting (.placeholder send.serial)
    (send.placeholder .failed)
  if unavailable then s.clearHistory else s

def reappeared (setting : Setting) (index : Nat) (send : Send) (message : ChatMessage) (s : Room) :
    Room :=
  s.setStage index send
    (if setting.isGroup && message.seq = 0 then .resolving message else .settled message)

/-- The lookup ends, with zero for no number. -/
def resolved (setting : Setting) (index : Nat) (send : Send) (message : ChatMessage) (seq : Nat)
    (s : Room) : Room :=
  if seq = 0 || !s.list.has message.id then s.setStage index send (.settled message)
  else
    let numbered := { message with seq, trackGroupRead := true }
    (s.replaceMessage setting message.id numbered).setStage index send (.settled numbered)

end Room

inductive Action where
  | receive (item : MessageItem)
  | revoke (clientMsgId tip : Text)
  | readReceipts (msgIds : List Text)
  | removeLocal (id : MessageId)
  | clearHistory
  | loadMessages
  | loadMoreMessages
  | locateMessage (target : Text)
  | page (request : Nat) (page : List MessageItem) (isEnd : Bool) (now : Nat)
  | pageFailed (request : Nat)
  | markedRead (request : Nat)
  | prepareOutgoingImage (content : Text) (createdAt : Nat)
  | deliverOutgoingImage (send : Nat) (preview : Text) (listed : Bool)
  | send (type : MessageType) (content : Text) (createdAt : Nat)
  | sent (send : Nat) (item : MessageItem)
  | sendFailed (send : Nat) (unavailable : Bool)
  | reappeared (send : Nat)
  | resolved (send : Nat) (seq : Nat)

/-- An answer of the history, also to the request that `locateMessage` waits with. -/
def Room.arrive (setting : Setting) (s : Room) (index : Nat) (request : Request)
    (page : List MessageItem) (isEnd : Bool) (now : Nat) : Room :=
  let (s, next) := s.answer setting now page isEnd request
  s.finish index next

def Room.step (setting : Setting) (s : Room) : Action → Option Room
  | .receive item => some (s.receive setting item)
  | .revoke clientMsgId tip => some (s.dropRevokedMessage clientMsgId tip)
  | .readReceipts msgIds => some (s.ingestReadReceipts msgIds)
  | .removeLocal id => some (s.removeLocal id)
  | .clearHistory => some s.clearHistory
  | .loadMessages => some s.loadMessages
  | .loadMoreMessages => some s.loadMoreMessages
  | .locateMessage target => some (s.locateMessage target)
  | .page index page isEnd now => match s.requests[index]? with
    | none => none
    | some (.opened _) => none
    | some request => some (s.arrive setting index request page isEnd now)
  | .pageFailed index => s.requests[index]?.map fun _ => s.finish index none
  | .markedRead index => match s.requests[index]? with
    | some (.opened target) => some (s.arrive setting index (.opened target) [] false 0)
    | _ => none
  | .prepareOutgoingImage content createdAt =>
    some (s.insertPlaceholder .image content createdAt .prepared)
  | .deliverOutgoingImage index preview listed => s.sends[index]?.bind fun send =>
      match send.stage with
      | .prepared => some (s.deliverOutgoingImage setting index send preview listed)
      | _ => none
  | .send type content createdAt => some (s.insertPlaceholder type content createdAt .sending)
  | .sent index item => s.sends[index]?.bind fun send => match send.stage with
      | .sending => some (s.sent setting index send item)
      | _ => none
  | .sendFailed index unavailable => s.sends[index]?.bind fun send => match send.stage with
      | .sending => some (s.sendFailed setting index send unavailable)
      | .delivered _ => some (s.sendFailed setting index send unavailable)
      | _ => none
  | .reappeared index => s.sends[index]?.bind fun send => match send.stage with
      | .delivered message => some (s.reappeared setting index send message)
      | _ => none
  | .resolved index seq => s.sends[index]?.bind fun send => match send.stage with
      | .resolving message => some (s.resolved setting index send message seq)
      | _ => none

/-- A conversation that was not opened yet. -/
def Room.initial : Room where
  list := []
  historyEnd := false
  placeholderSeq := 0
  requests := []
  sends := []
  recent := .none
  deleted := []

def roomMachine (setting : Setting) : Machine Room Action where
  initial s := s = .initial
  step := Room.step setting

end ImApp.ChatStore
