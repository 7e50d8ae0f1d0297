import ImApp.Library.UnicodeText
import ImApp.Retention.Policy

/-!
The persisted history of a group conversation. Documents hold a hundred slots
each. A slot is evidence only when it holds a message of the group under its own
sequence whose content type is classified.
-/

namespace ImApp.Retention

open Option
open JsonText (Text Json decode)

def lookup (key : Text) (fields : List (Text × Json)) : Option Json :=
  (fields.find? (fun field => field.1 = key)).map Prod.snd

/-- The member `first`, or else the member `second`. -/
def lookupEither (first second : Text) (fields : List (Text × Json)) : Option Json :=
  lookup first fields <|> lookup second fields

/-- Anything but a string reads as the empty text. -/
def stringField (first second : Text) (fields : List (Text × Json)) : Text :=
  match lookupEither first second fields with
  | some (.string text) => text
  | _ => []

/-- The payload is the member itself or the text in it. -/
def pinPayload (outer : List (Text × Json)) : Option Json :=
  match lookupEither "data".toList "Data".toList outer with
  | some (.string text) => decode text
  | some value => some value
  | none => none

/-- Pin synchronization is not a displayed message. -/
def imAppPinControl (content : Text) : Bool :=
  if 128 * 1024 < UnicodeText.utf8Length content then false
  else match decode content with
    | some (.object outer) => match pinPayload outer with
      | some (.object payload) =>
        stringField "businessKey".toList "BusinessKey".toList payload = "message_pin".toList &&
          (UnicodeText.toLower (stringField "action".toList "Action".toList payload) =
              "unpin".toList ||
            UnicodeText.trimSpace
              (stringField "clientMsgID".toList "ClientMsgID".toList payload) ≠ [])
      | _ => false
    | _ => false

inductive SessionType where
  | readGroupChat
  | other (code : Int)
  deriving DecidableEq

inductive MsgStatus where
  | hasDeleted
  | other (code : Int)
  deriving DecidableEq

inductive ContentType where
  | text | picture | voice | video | file | atText
  | merger | card | location | custom | quote | advancedText | markdownText
  | groupCreatedNotification | groupInfoSetNotification | memberQuitNotification
  | groupOwnerTransferredNotification | memberKickedNotification | memberInvitedNotification
  | memberEnterNotification | groupDismissedNotification | groupMemberMutedNotification
  | groupMemberCancelMutedNotification | groupMutedNotification | groupCancelMutedNotification
  | groupMemberSetToAdminNotification | groupMemberSetToOrdinaryUserNotification
  | groupInfoSetAnnouncementNotification | groupInfoSetNameNotification | msgRevokeNotification
  | typing | customNotTriggerConversation | customOnlineOnly
  | reactionMessageModifier | reactionMessageDeleter | groupMemberInfoSetNotification
  | joinGroupApplicationNotification | groupApplicationAcceptedNotification
  | groupApplicationRejectedNotification
  | conversationChangeNotification | conversationPrivateChatNotification
  | conversationUnreadNotification
  | clearConversationNotification | conversationDeleteNotification | deleteMsgsNotification
  | hasReadReceipt
  | other (code : Int)
  deriving DecidableEq

def ContentType.visibility : ContentType → Option Visibility
  | .text | .picture | .voice | .video | .file | .atText
  | .merger | .card | .location | .custom | .quote | .advancedText | .markdownText
  | .groupCreatedNotification | .groupInfoSetNotification | .memberQuitNotification
  | .groupOwnerTransferredNotification | .memberKickedNotification | .memberInvitedNotification
  | .memberEnterNotification | .groupDismissedNotification | .groupMemberMutedNotification
  | .groupMemberCancelMutedNotification | .groupMutedNotification
  | .groupCancelMutedNotification
  | .groupMemberSetToAdminNotification | .groupMemberSetToOrdinaryUserNotification
  | .groupInfoSetAnnouncementNotification | .groupInfoSetNameNotification
  | .msgRevokeNotification => some .visible
  | .typing | .customNotTriggerConversation | .customOnlineOnly
  | .reactionMessageModifier | .reactionMessageDeleter | .groupMemberInfoSetNotification
  | .joinGroupApplicationNotification | .groupApplicationAcceptedNotification
  | .groupApplicationRejectedNotification
  | .conversationChangeNotification | .conversationPrivateChatNotification
  | .conversationUnreadNotification
  | .clearConversationNotification | .conversationDeleteNotification
  | .deleteMsgsNotification | .hasReadReceipt => some .hidden
  | .other _ => none

/-- `history` is the message's IsHistory option. -/
structure MsgData where
  seq : Int
  sessionType : SessionType
  groupID : Text
  contentType : ContentType
  status : MsgStatus
  history : Option Bool
  sendTime : Int
  content : Text

structure MsgInfo where
  msg : Option MsgData

def msgVisibility (m : MsgData) (byType : Visibility) : Visibility :=
  if m.status = .hasDeleted then .hidden
  else if m.history = some false then .hidden
  else if m.contentType = .custom ∧ imAppPinControl m.content then .hidden
  else byType

/-- Only classified, actually persisted slots are evidence. -/
def imAppClassify (info : Option MsgInfo) (groupID : Text) (seq : Int) : Option RetentionMessage :=
  (info.bind MsgInfo.msg).bind fun m =>
    if m.seq ≠ seq ∨ m.sessionType ≠ .readGroupChat ∨ m.groupID ≠ groupID then none
    else m.contentType.visibility.bind fun byType =>
      let visibility := msgVisibility m byType
      if visibility = .visible ∧ m.sendTime ≤ 0 then none
      else some { seq := seq, sendTime := unixMilli m.sendTime, visibility := visibility }

/-- The slots of each document of one conversation, by document number. -/
abbrev Documents := Int → Option (List (Option MsgInfo))

def singleGocMsgNum : Int := 100

def docNumber (seq : Int) : Int := (seq - 1) / singleGocMsgNum

def msgIndex (seq : Int) : Int := (seq - 1) % singleGocMsgNum

/-- The row of `seq` in its document. -/
def slotRow (doc : List (Option MsgInfo)) (groupID : Text) (seq : Int) : Option RetentionMessage :=
  (doc[(msgIndex seq).toNat]?).bind fun info => imAppClassify info groupID seq

/-- The classified row of `seq`, if it is persisted. -/
def Documents.row (documents : Documents) (groupID : Text) (seq : Int) : Option RetentionMessage :=
  (documents (docNumber seq)).bind fun doc => slotRow doc groupID seq

/-- The send time of the visible message `seq`. -/
def Documents.visibleAt (documents : Documents) (groupID : Text) (seq : Int) : Option Time :=
  (documents.row groupID seq).bind fun row =>
    if row.visibility = .visible then some row.sendTime else none

variable {groupID : Text} {seq : Int}

theorem imAppClassify_seq {info : Option MsgInfo}
    {row : RetentionMessage} (hrow : imAppClassify info groupID seq = some row) :
    row.seq = seq := by
  unfold imAppClassify at hrow
  simp only [bind_eq_some_iff] at hrow
  obtain ⟨m, _, hrow⟩ := hrow
  split at hrow
  · cases hrow
  simp only [bind_eq_some_iff] at hrow
  obtain ⟨byType, _, hrow⟩ := hrow
  split at hrow
  · cases hrow
  rw [← some.inj hrow]

theorem ContentType.visibility_classified {contentType : ContentType} {byType : Visibility}
    (h : contentType.visibility = some byType) : byType = .visible ∨ byType = .hidden := by
  cases contentType <;> simp only [ContentType.visibility, some.injEq, reduceCtorEq] at h <;>
    simp [← h]

theorem msgVisibility_classified {m : MsgData} {byType : Visibility}
    (h : byType = .visible ∨ byType = .hidden) :
    msgVisibility m byType = .visible ∨ msgVisibility m byType = .hidden := by
  unfold msgVisibility
  split_ifs <;> simp [h]

theorem imAppClassify_classified {info : Option MsgInfo}
    {row : RetentionMessage} (hrow : imAppClassify info groupID seq = some row) :
    (row.visibility = .visible ∧ zeroTime < row.sendTime) ∨ row.visibility = .hidden := by
  unfold imAppClassify at hrow
  simp only [bind_eq_some_iff] at hrow
  obtain ⟨m, _, hrow⟩ := hrow
  split at hrow
  · cases hrow
  simp only [bind_eq_some_iff] at hrow
  obtain ⟨byType, hbyType, hrow⟩ := hrow
  have hclassified := msgVisibility_classified (m := m) (ContentType.visibility_classified hbyType)
  split at hrow
  · cases hrow
  rename_i htime
  rw [← some.inj hrow]
  rcases hclassified with hvis | hhidden
  · refine .inl ⟨hvis, ?_⟩
    have hpos : 0 < m.sendTime := by
      by_contra hneg
      exact htime ⟨hvis, not_lt.mp hneg⟩
    exact unixMilli_pos hpos
  exact .inr hhidden

theorem visibleAt_sendTime {documents : Documents} {t : Time}
    (ht : documents.visibleAt groupID seq = some t) :
    ∃ m, (∃ doc, documents (docNumber seq) = some doc ∧ some ⟨some m⟩ ∈ doc) ∧
      unixMilli m.sendTime = t := by
  unfold Documents.visibleAt Documents.row slotRow imAppClassify at ht
  simp only [bind_eq_some_iff] at ht
  obtain ⟨row, ⟨doc, hdoc, info, hinfo, m, ⟨⟨_⟩, rfl, hmsg⟩, hrow⟩, ht⟩ := ht
  dsimp only at hmsg
  subst hmsg
  refine ⟨m, ⟨doc, hdoc, List.mem_of_getElem? hinfo⟩, ?_⟩
  split at hrow
  · cases hrow
  obtain ⟨byType, _, hrow⟩ := bind_eq_some_iff.mp hrow
  split at hrow
  · cases hrow
  rw [← some.inj hrow] at ht
  split at ht
  · exact some.inj ht
  cases ht

end ImApp.Retention
