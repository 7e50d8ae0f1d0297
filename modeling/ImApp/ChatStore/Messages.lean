import ImApp.Library.JsonText
import Mathlib.Data.List.Nodup

/-!
The messages of a conversation as the chat store lists them, and what each of its
operations does to such a list. Messages of the SDK carry its ids; the bubble of
a message that is still being sent carries an id of its own.
-/

namespace ImApp.ChatStore

open List Bool
open JsonText (Text)

inductive MessageType where
  | text
  | image
  | voice
  | video
  | file
  | card
  | groupInvite
  | system
  deriving DecidableEq

inductive MessageStatus where
  | sending
  | sent
  | failed
  deriving DecidableEq

/-- The id that the SDK gave the message, or that of a placeholder, which is
made from its serial number. -/
inductive MessageId where
  | client (clientMsgID : Text)
  | placeholder (serial : Nat)
  deriving DecidableEq

/-- Times are in milliseconds. `seq` is zero as long as it is unknown. -/
structure ChatMessage where
  id : MessageId
  type : MessageType
  content : Text
  createdAt : Nat
  hasRead : Bool
  seq : Nat
  trackGroupRead : Bool
  status : MessageStatus
  deriving DecidableEq

/-- Tells which message is pinned, or that it no longer is. -/
structure PinPayload where
  unpin : Bool
  clientMsgID : Text

/-- What is read of a message of the SDK. One with a `pin` is not shown. A
`notification` is one of the SDK's own, and `dissolved` that the group is. -/
structure MessageItem where
  clientMsgID : Text
  conversationId : Text
  sendID : Text
  recvID : Text
  type : MessageType
  content : Text
  createdAt : Nat
  hasRead : Bool
  seq : Nat
  status : MessageStatus
  pin : Option PinPayload
  notification : Bool
  dissolved : Bool

def MessageItem.toChatMessage (item : MessageItem) : ChatMessage where
  id := .client item.clientMsgID
  type := item.type
  content := item.content
  createdAt := item.createdAt
  hasRead := item.hasRead
  seq := item.seq
  trackGroupRead := false
  status := item.status

/-- The smallest visible sequence number of the conversation hides this one. A
message without a number is not hidden. -/
def removed (minSeq seq : Nat) : Bool := 0 < seq && seq < minSeq

abbrev Messages := List ChatMessage

namespace Messages

def ids (list : Messages) : List MessageId := list.map ChatMessage.id

def has (list : Messages) (id : MessageId) : Bool := list.any (fun m => m.id = id)

def filterRemoved (minSeq : Nat) (list : Messages) : Messages :=
  list.filter (fun m => !removed minSeq m.seq)

/-- The bubbles of a page of history. -/
def mapped (minSeq : Nat) (page : List MessageItem) : Messages :=
  (page.filter (fun item => item.pin.isNone && !removed minSeq item.seq)).map MessageItem.toChatMessage

def appendMessage (list : Messages) (message : ChatMessage) : Messages :=
  if list.has message.id then list else list ++ [message]

def dropRevokedMessage (clientMsgId : Text) (tip : Text) (list : Messages) : Messages :=
  list.map fun m =>
    if m.id = .client clientMsgId then { m with type := .system, content := tip } else m

def markLoadedMessagesRead (msgIds : List Text) (list : Messages) : Messages :=
  list.map fun m =>
    if msgIds.any (fun id => m.id = .client id) then { m with hasRead := true } else m

def removeLocal (id : MessageId) (list : Messages) : Messages := list.filter (fun m => m.id ≠ id)

/-- A bubble that history may not show yet: one that is not sent, or that was
sent less than a minute ago. -/
def keptLocally (now : Nat) (m : ChatMessage) : Bool :=
  match m.status with
  | .sending => true
  | .failed => true
  | .sent => m.createdAt ≤ now && now - m.createdAt < 60000

def mergeLocalPending (now : Nat) (history existing : Messages) : Messages :=
  history ++ existing.filter (fun m => !history.has m.id && keptLocally now m)

/-- Messages of history that were marked read before stay so. -/
def withRead (existing history : Messages) : Messages :=
  history.map fun m =>
    if existing.any (fun old => old.id = m.id && old.hasRead) then { m with hasRead := true }
    else m

def retainFromMessage (clientMsgId : Text) (list : Messages) : Messages :=
  match list.findIdx? (fun m => m.id = .client clientMsgId) with
  | none => list
  | some index => list.drop index

/-- Puts a message in the place of another one and drops a copy of the message
that came in by itself. -/
def substitute (tempId : MessageId) (message : ChatMessage) (list : Messages) : Messages :=
  (list.filter fun m => m.id ≠ message.id || m.id = tempId).map fun m =>
    if m.id = tempId then message else m

/-- Without a place the message goes to the end. -/
def replaceMessage (minSeq : Nat) (tempId : MessageId) (message : ChatMessage)
    (list : Messages) : Messages :=
  let next := list.substitute tempId message
  filterRemoved minSeq
    (if !list.has tempId && !has next message.id then next ++ [message] else next)

end Messages

/-- A sent message whose own content is poorer than that of its placeholder. -/
def withCover (mergeVideoContent : Text → Text → Text) (placeholder mapped : ChatMessage) :
    ChatMessage :=
  if placeholder.type = .video ∧ mapped.type = .video then
    { mapped with content := mergeVideoContent mapped.content placeholder.content }
  else if placeholder.type = .image ∧ mapped.type = .image ∧
      mapped.content.all Char.isWhitespace ∧ placeholder.content ≠ [] then
    { mapped with content := placeholder.content }
  else mapped

variable {list : Messages} {id : MessageId} {m message : ChatMessage}

namespace Messages

theorem mem_ids : id ∈ list.ids ↔ ∃ m ∈ list, m.id = id := mem_map

theorem mem_ids_of_mem (h : m ∈ list) : m.id ∈ list.ids := mem_map_of_mem h

@[simp] theorem has_iff : list.has id = true ↔ id ∈ list.ids := by
  simp [has, mem_ids]

theorem ids_append (front back : Messages) : ids (front ++ back) = front.ids ++ back.ids :=
  map_append

theorem nodup_filter {p : ChatMessage → Bool} (h : list.ids.Nodup) : (ids (list.filter p)).Nodup :=
  h.sublist (filter_sublist.map ChatMessage.id)

theorem ids_map {edit : ChatMessage → ChatMessage} (h : ∀ m, (edit m).id = m.id) :
    ids (list.map edit) = list.ids := by
  rw [ids, map_map]
  exact map_congr_left (fun m _ => h m)

@[simp] theorem ids_dropRevokedMessage (clientMsgId tip : Text) :
    (list.dropRevokedMessage clientMsgId tip).ids = list.ids := by
  apply ids_map
  intro m
  split <;> rfl

@[simp] theorem ids_markLoadedMessagesRead (msgIds : List Text) :
    (list.markLoadedMessagesRead msgIds).ids = list.ids := by
  apply ids_map
  intro m
  split <;> rfl

@[simp] theorem ids_withRead (existing : Messages) : (withRead existing list).ids = list.ids := by
  apply ids_map
  intro m
  split <;> rfl

theorem filterRemoved_eq {minSeq : Nat} (h : ∀ m ∈ list, removed minSeq m.seq = false) :
    filterRemoved minSeq list = list := by
  apply filter_eq_self.mpr
  intro m hm
  rw [h m hm, Bool.not_false]

theorem mem_filterRemoved {minSeq : Nat} :
    m ∈ filterRemoved minSeq list ↔ m ∈ list ∧ removed minSeq m.seq = false := by
  simp [filterRemoved]

theorem mem_mapped {minSeq : Nat} {page : List MessageItem} (h : m ∈ mapped minSeq page) :
    ∃ item ∈ page, item.toChatMessage = m ∧ removed minSeq m.seq = false := by
  obtain ⟨item, hitem, rfl⟩ := mem_map.mp h
  simp only [mem_filter, and_eq_true, not_eq_true'] at hitem
  exact ⟨item, hitem.1, rfl, hitem.2.2⟩

theorem retainFromMessage_sublist (clientMsgId : Text) :
    (list.retainFromMessage clientMsgId).Sublist list := by
  rw [retainFromMessage]
  split
  · exact .refl _
  exact drop_sublist ..

theorem mem_mergeLocalPending {now : Nat} {history existing : Messages} :
    m ∈ mergeLocalPending now history existing ↔
      m ∈ history ∨ m ∈ existing ∧ m.id ∉ history.ids ∧ keptLocally now m = true := by
  simp [mergeLocalPending, ← has_iff]

theorem nodup_mergeLocalPending {now : Nat} {history existing : Messages}
    (hhistory : history.ids.Nodup) (hexisting : existing.ids.Nodup) :
    (mergeLocalPending now history existing).ids.Nodup := by
  rw [mergeLocalPending, ids_append]
  refine List.Nodup.append hhistory (nodup_filter hexisting) ?_
  intro id hhere hthere
  obtain ⟨m, hm, rfl⟩ := mem_ids.mp hthere
  have hpend := (mem_filter.mp hm).2
  simp [has_iff.mpr hhere] at hpend

variable {minSeq : Nat} {tempId : MessageId}

theorem mem_substitute : m ∈ list.substitute tempId message ↔
      tempId ∈ list.ids ∧ m = message ∨ m ∈ list ∧ m.id ≠ message.id ∧ m.id ≠ tempId := by
  simp only [substitute, mem_map, mem_filter, mem_ids, or_eq_true, decide_eq_true_eq]
  constructor
  · rintro ⟨old, ⟨hold, hkept⟩, rfl⟩
    split
    case isTrue htemp => exact .inl ⟨⟨old, hold, htemp⟩, rfl⟩
    case isFalse htemp => exact .inr ⟨hold, hkept.resolve_right htemp, htemp⟩
  rintro (⟨⟨old, hold, htemp⟩, rfl⟩ | ⟨hm, hid, htemp⟩)
  · exact ⟨old, ⟨hold, .inr htemp⟩, if_pos htemp⟩
  exact ⟨m, ⟨hm, .inl hid⟩, if_neg htemp⟩

theorem nodup_substitute (h : list.ids.Nodup) : (list.substitute tempId message).ids.Nodup := by
  have hids : (list.substitute tempId message).ids =
      (ids (list.filter fun m => m.id ≠ message.id || m.id = tempId)).map
        fun id => if id = tempId then message.id else id := by
    simp only [substitute, ids, map_map]
    apply map_congr_left
    intro m _
    simp only [Function.comp_apply]
    split <;> rfl
  rw [hids]
  refine List.Nodup.map_on ?_ (nodup_filter h)
  have hkept : ∀ id ∈ ids (list.filter fun m => m.id ≠ message.id || m.id = tempId),
      id ≠ message.id ∨ id = tempId := by
    intro id hid
    obtain ⟨m, hm, rfl⟩ := mem_ids.mp hid
    simpa using (mem_filter.mp hm).2
  intro one hone other hother hsame
  have := hkept one hone
  have := hkept other hother
  grind

theorem mem_replaceMessage : m ∈ list.replaceMessage minSeq tempId message ↔
      (m = message ∨ m ∈ list ∧ m.id ≠ message.id ∧ m.id ≠ tempId) ∧
        removed minSeq m.seq = false := by
  rw [replaceMessage, mem_filterRemoved]
  refine and_congr_left' ?_
  split
  case isTrue happend =>
    simp only [and_eq_true, not_eq_true', ← not_eq_true, has_iff] at happend
    rw [mem_append, mem_substitute, mem_singleton]
    tauto
  case isFalse hplace =>
    have htemp : tempId ∈ list.ids := by
      by_contra hnone
      have hthere : message.id ∈ (list.substitute tempId message).ids := by
        simpa [← not_eq_true, hnone] using hplace
      obtain ⟨old, hold, hid⟩ := mem_ids.mp hthere
      rcases mem_substitute.mp hold with ⟨htemp, _⟩ | ⟨_, hne, _⟩
      · exact hnone htemp
      exact hne hid
    rw [mem_substitute]
    tauto

theorem nodup_replaceMessage (h : list.ids.Nodup) :
    (list.replaceMessage minSeq tempId message).ids.Nodup := by
  apply nodup_filter
  have hnext : (list.substitute tempId message).ids.Nodup := nodup_substitute h
  split
  case isTrue happend =>
    simp only [and_eq_true, not_eq_true', ← not_eq_true, has_iff] at happend
    rw [ids_append]
    refine List.Nodup.append hnext (nodup_singleton _) ?_
    intro id hid hlast
    rw [mem_singleton.mp hlast] at hid
    exact happend.2 hid
  case isFalse => exact hnext

end Messages

end ImApp.ChatStore
