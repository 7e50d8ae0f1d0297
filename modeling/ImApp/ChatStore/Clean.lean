import ImApp.ChatStore.Operations

/-!
Stores that show nothing older than given boundaries. The operations filter by the
tombstones in force. They keep a store clean of what other boundaries hide too, as
long as whatever they take in and those boundaries hide is hidden by the tombstones.
-/

namespace ImApp.ChatStore

open List Function Messages
open JsonText (Text)

/-- A message of a conversation, by its number. -/
abbrev Numbered := Text × Nat

def hides (bound : Text → Nat) (key : Numbered) : Bool := removed (bound key.1) key.2

/-- What `bound` hides is hidden by `minSeq`. -/
def Covered (minSeq bound : Text → Nat) (key : Numbered) : Prop :=
  hides bound key = true → hides minSeq key = true

instance (minSeq bound : Text → Nat) (key : Numbered) : Decidable (Covered minSeq bound key) :=
  inferInstanceAs (Decidable (_ → _))

def MessageItem.key (item : MessageItem) : Numbered := (item.conversationId, item.seq)

def ConversationItem.key (item : ConversationItem) : Numbered :=
  (item.conversationID, item.latestSeq)

/-- No message that is listed or kept for quoting is hidden, and none is previewed. -/
structure Shown.Clean (bound : Text → Nat) (shown : Shown) : Prop where
  listed : ∀ id, ∀ m ∈ shown.messagesMap id, removed (bound id) m.seq = false
  raw : ∀ key item, shown.rawMessages key = some item → hides bound item.key = false
  previews : ∀ conv ∈ shown.conversations, conv.Visible bound

variable {env : Env} {minSeq bound : Text → Nat} {app : App env} {id : Text}

theorem clean_empty (bound : Text → Nat) : Shown.empty.Clean bound where
  listed := by simp [Shown.empty]
  raw := by simp [Shown.empty]
  previews := by simp [Shown.empty]

theorem Covered.visible {key : Numbered} (h : Covered minSeq bound key)
    (hvis : hides minSeq key = false) : hides bound key = false := by
  cases hbound : hides bound key with
  | false => rfl
  | true => exact absurd (h hbound) (by simp [hvis])

theorem covered_zero (minSeq bound : Text → Nat) (id : Text) : Covered minSeq bound (id, 0) := by
  intro h
  cases h

variable {conv prev next : Conversation}

theorem Conversation.Visible.blank (h : conv.lastMessage = []) : conv.Visible bound :=
  fun hpreview => absurd h hpreview

theorem Conversation.Visible.sanitize (h : conv.Visible bound) :
    (sanitizeRetentionPreview minSeq conv).Visible bound := by
  rw [sanitizeRetentionPreview]
  split
  · exact .blank rfl
  exact h

theorem visible_sanitize (h : Covered minSeq bound (conv.id, conv.lastMessageSeq)) :
    (sanitizeRetentionPreview minSeq conv).Visible bound := by
  rw [sanitizeRetentionPreview]
  split
  · exact .blank rfl
  case isFalse hremoved =>
    intro _
    exact h.visible (Bool.eq_false_iff.mpr hremoved)

theorem Conversation.Visible.decorate {replaceLabel : Text → Text} (h : conv.Visible bound) :
    (decorateConversation minSeq replaceLabel conv).Visible bound := by
  rw [decorateConversation]
  apply Visible.sanitize
  have hsanitized : (sanitizeRetentionPreview minSeq conv).Visible bound := h.sanitize
  intro hpreview
  apply hsanitized
  intro hblank
  simp [hblank] at hpreview

theorem visible_toConversation {item : ConversationItem} (h : Covered minSeq bound item.key) :
    (toConversation minSeq item).Visible bound := by
  intro hpreview
  have hvis : hides minSeq item.key = false := by
    cases hremoved : hides minSeq item.key with
    | false => rfl
    | true =>
      have hremoved : removed (minSeq item.conversationID) item.latestSeq = true := hremoved
      simp [toConversation, hremoved] at hpreview
  exact h.visible hvis

theorem Conversation.Visible.keepNewer {active : Text} (hprev : prev.Visible bound)
    (hnext : next.Visible bound) (hid : prev.id = next.id) :
    (keepNewerPreview minSeq active prev next).Visible bound := by
  rw [keepNewerPreview]
  apply Visible.sanitize
  intro hpreview
  by_cases hkept : prev.lastMessage ≠ [] ∧ next.lastMessageAt.getD 0 < prev.lastMessageAt.getD 0
  · simp only [if_pos hkept] at hpreview ⊢
    rw [← hid]
    exact hprev hpreview
  simp only [if_neg hkept] at hpreview ⊢
  exact hnext hpreview

namespace Conversations

variable {list : Conversations}

theorem id_of_find (h : list.find id = some conv) : conv ∈ list ∧ conv.id = id := by
  have hid := find?_some h
  exact ⟨mem_of_find?_eq_some h, of_decide_eq_true hid⟩

theorem mem_patch {edit : Conversation → Conversation} (h : conv ∈ list.patch id edit) :
    conv ∈ list ∨ ∃ old ∈ list, old.id = id ∧ conv = edit old := by
  induction list with
  | nil => cases h
  | cons head rest ih =>
    rw [patch] at h
    split at h
    case isTrue hid =>
      rcases mem_cons.mp h with rfl | hrest
      · exact .inr ⟨head, mem_cons_self, hid, rfl⟩
      exact .inl (mem_cons_of_mem _ hrest)
    · rcases mem_cons.mp h with rfl | hrest
      · exact .inl mem_cons_self
      rcases ih hrest with hold | ⟨old, hold, hedit⟩
      · exact .inl (mem_cons_of_mem _ hold)
      exact .inr ⟨old, mem_cons_of_mem _ hold, hedit⟩

theorem visible_upsert {active : Text} (hlist : ∀ row ∈ list, row.Visible bound)
    (hconv : conv.Visible bound) : ∀ row ∈ list.upsert minSeq active conv, row.Visible bound := by
  intro row hrow
  rw [upsert] at hrow
  split at hrow
  · rcases mem_patch hrow with hold | ⟨old, hold, hid, rfl⟩
    · exact hlist row hold
    exact (hlist old hold).keepNewer hconv hid
  rcases mem_append.mp hrow with hold | hnew
  · exact hlist row hold
  rw [mem_singleton.mp hnew]
  exact hconv

theorem visible_upsertAll {active : Text} {rows : List Conversation}
    (hlist : ∀ row ∈ list, row.Visible bound) (hrows : ∀ row ∈ rows, row.Visible bound) :
    ∀ row ∈ rows.foldl (fun list conv => list.upsert minSeq active conv) list,
      row.Visible bound := by
  induction rows generalizing list with
  | nil => exact hlist
  | cons first rest ih =>
    apply ih
    · exact visible_upsert hlist (hrows first mem_cons_self)
    intro row hrow
    exact hrows row (mem_cons_of_mem _ hrow)

end Conversations

namespace App

/-- The store shows nothing that `bound` hides. -/
abbrev Clean (bound : Text → Nat) (app : App env) : Prop := app.shown.Clean bound

namespace Clean

section

variable (h : app.Clean bound)
include h

theorem setConversations {conversations : Conversations}
    (hrows : ∀ row ∈ conversations, row.Visible bound) :
    (app.setConversations conversations).Clean bound :=
  ⟨h.listed, h.raw, hrows⟩

theorem filter {keep : Conversation → Bool} :
    (app.setConversations (app.shown.conversations.filter keep)).Clean bound := by
  apply h.setConversations
  intro row hrow
  exact h.previews row (mem_of_mem_filter hrow)

theorem patchConversation {edit : Conversation → Conversation}
    (hedit : ∀ conv, conv.Visible bound → conv.id = id → (edit conv).Visible bound) :
    (app.patchConversation id edit).Clean bound := by
  apply h.setConversations
  intro row hrow
  rcases Conversations.mem_patch hrow with hold | ⟨old, hold, hid, rfl⟩
  · exact h.previews row hold
  exact hedit old (h.previews old hold) hid

theorem unhideConversation : (app.unhideConversation id).Clean bound := by
  rw [App.unhideConversation]
  split <;> exact h

theorem allowGroupConversation : (app.allowGroupConversation id).Clean bound := by
  rw [App.allowGroupConversation]
  split
  · exact unhideConversation h
  exact h

end

variable {items : List ConversationItem}

theorem visible_incoming (hitems : ∀ item ∈ items, Covered app.minSeq bound item.key) :
    ∀ row ∈ app.incoming items, row.Visible bound := by
  intro row hrow
  obtain ⟨item, hitem, rfl⟩ := mem_map.mp (mem_of_mem_filter hrow)
  exact (visible_toConversation (hitems item hitem)).decorate

theorem upsertConversations (h : app.Clean bound)
    (hitems : ∀ item ∈ items, Covered app.minSeq bound item.key) :
    (app.upsertConversations items).Clean bound := by
  rw [App.upsertConversations]
  split
  · exact h
  apply h.setConversations
  intro row hrow
  exact Conversations.visible_upsertAll h.previews (visible_incoming hitems) row
    (mem_of_mem_filter hrow)

theorem replaceConversations (h : app.Clean bound)
    (hitems : ∀ item ∈ items, Covered app.minSeq bound item.key) :
    (app.replaceConversations items).Clean bound := by
  apply h.setConversations
  intro row hrow
  obtain ⟨item, hitem, rfl⟩ := mem_map.mp (mem_of_mem_filter hrow)
  have hmapped : (app.decorate (toConversation app.minSeq item)).Visible bound :=
    (visible_toConversation (hitems item hitem)).decorate
  simp only
  split
  case h_1 prev hprev =>
    obtain ⟨hthere, hid⟩ := Conversations.id_of_find hprev
    exact (h.previews prev hthere).keepNewer hmapped hid
  · exact hmapped

theorem applyContactRemarks (h : app.Clean bound) : app.applyContactRemarks.Clean bound := by
  apply h.setConversations
  intro row hrow
  obtain ⟨old, hold, rfl⟩ := mem_map.mp hrow
  exact (h.previews old hold).decorate

theorem setMessages {list : Messages} (h : app.Clean bound)
    (hlist : ∀ m ∈ list, removed (bound id) m.seq = false) :
    (app.setMessages id list).Clean bound := by
  refine ⟨?_, h.raw, h.previews⟩
  intro other m hm
  simp only [App.setMessages] at hm
  rcases eq_or_ne other id with rfl | hother
  · rw [update_self] at hm
    exact hlist m hm
  rw [update_of_ne hother] at hm
  exact h.listed other m hm

theorem setHistoryEnd (historyEnd : Bool) (h : app.Clean bound) :
    (app.setHistoryEnd id historyEnd).Clean bound :=
  ⟨h.listed, h.raw, h.previews⟩

theorem deleteRaw (ids : List MessageId) (h : app.Clean bound) :
    (app.deleteRaw ids).Clean bound := by
  refine ⟨h.listed, ?_, h.previews⟩
  intro key item hitem
  simp only [App.deleteRaw] at hitem
  split at hitem
  · cases hitem
  exact h.raw key item hitem

theorem trimRawMessagesWindow (id : Text) (h : app.Clean bound) :
    (app.trimRawMessagesWindow id).Clean bound := by
  simp only [App.trimRawMessagesWindow]
  split
  · exact h
  refine ⟨h.listed, ?_, h.previews⟩
  intro key item hitem
  exact h.raw key item (Option.filter_eq_some_iff.mp hitem).1

theorem rememberRaw {item : MessageItem} (h : app.Clean bound)
    (hitem : Covered app.minSeq bound item.key) : (app.rememberRaw item).Clean bound := by
  simp only [App.rememberRaw]
  split
  · exact h
  case isFalse hkept =>
    push Not at hkept
    have hvis : hides bound item.key = false := hitem.visible (Bool.eq_false_iff.mpr hkept.2)
    have hremem : ({ app with shown := { app.shown with
        rawMessages := Function.update app.shown.rawMessages item.clientMsgID (some item) } } :
          App env).Clean bound := by
      refine ⟨h.listed, ?_, h.previews⟩
      intro key other hother
      simp only at hother
      rcases eq_or_ne key item.clientMsgID with rfl | hne
      · rw [update_self] at hother
        rw [← Option.some.inj hother]
        exact hvis
      rw [update_of_ne hne] at hother
      exact h.raw key other hother
    split
    · exact trimRawMessagesWindow _ hremem
    exact hremem

theorem rememberAll {items : List MessageItem} (h : app.Clean bound)
    (hitems : ∀ item ∈ items, Covered app.minSeq bound item.key) :
    (app.rememberAll items).Clean bound := by
  induction items generalizing app with
  | nil => exact h
  | cons item items ih =>
    have hfirst : (app.rememberRaw item).Clean bound :=
      h.rememberRaw (hitems item mem_cons_self)
    apply ih hfirst
    intro other hother
    rw [minSeq_of_frame (frame_rememberRaw app item)]
    exact hitems other (mem_cons_of_mem _ hother)

theorem trimMessageWindow (id : Text) (h : app.Clean bound) :
    (app.trimMessageWindow id).Clean bound := by
  simp only [App.trimMessageWindow]
  split
  · exact h
  apply setHistoryEnd
  apply deleteRaw
  apply h.setMessages
  intro m hm
  exact h.listed id m (mem_of_mem_drop hm)

theorem replaceMessage {tempId : MessageId} {message : ChatMessage} (h : app.Clean bound)
    (hmsg : Covered app.minSeq bound (id, message.seq)) :
    (app.replaceMessage id tempId message).Clean bound := by
  apply h.setMessages
  intro m hm
  obtain ⟨hkept, hvis⟩ := mem_replaceMessage.mp hm
  rcases hkept with rfl | ⟨hold, -⟩
  · exact hmsg.visible hvis
  exact h.listed id m hold

theorem dropRevokedMessage {clientMsgId tip : Text} (h : app.Clean bound) :
    (app.dropRevokedMessage id clientMsgId tip).Clean bound := by
  apply h.setMessages
  intro m hm
  obtain ⟨old, hold, rfl⟩ := mem_map.mp hm
  have hvis := h.listed id old hold
  split <;> exact hvis

theorem markLoadedMessagesRead (msgIds : List Text) (h : app.Clean bound) :
    (app.markLoadedMessagesRead msgIds).Clean bound := by
  refine ⟨?_, h.raw, h.previews⟩
  intro id m hm
  obtain ⟨old, hold, rfl⟩ := mem_map.mp hm
  have hvis := h.listed id old hold
  split <;> exact hvis

theorem noMessages (h : app.Clean bound) : (app.setMessages id []).Clean bound := by
  apply h.setMessages
  simp

theorem clearHistory (id : Text) (h : app.Clean bound) : (app.clearHistory id).Clean bound := by
  apply Clean.patchConversation
  · apply deleteRaw
    apply setHistoryEnd
    exact h.noMessages
  intro conv _ _
  exact .blank rfl

theorem removeExitedGroupConversation (id : Text) (h : app.Clean bound) :
    (app.removeExitedGroupConversation id).Clean bound := by
  apply deleteRaw
  apply setHistoryEnd
  apply noMessages
  exact ⟨h.listed, h.raw, fun row hrow => h.previews row (mem_of_mem_filter hrow)⟩

theorem removeLocal (id : Text) (messageId : MessageId) (h : app.Clean bound) :
    (app.removeLocal id messageId).Clean bound := by
  apply deleteRaw
  apply h.setMessages
  intro m hm
  exact h.listed id m (mem_of_mem_filter hm)

theorem setOnlineStatus (states : List (Text × Nat)) (h : app.Clean bound) :
    (app.setOnlineStatus states).Clean bound :=
  ⟨h.listed, h.raw, h.previews⟩

theorem pruneRetainedHistory (ids : List Text) (h : app.Clean bound) :
    (app.pruneRetainedHistory ids).Clean bound := by
  refine ⟨?_, ?_, ?_⟩
  · intro id m hm
    simp only [App.pruneRetainedHistory] at hm
    split at hm
    · exact h.listed id m (mem_filterRemoved.mp hm).1
    exact h.listed id m hm
  · intro key item hitem
    exact h.raw key item (Option.filter_eq_some_iff.mp hitem).1
  intro row hrow
  obtain ⟨old, hold, rfl⟩ := mem_map.mp hrow
  exact (h.previews old hold).sanitize

/-- Boundaries that moved on for some groups only hide nothing once these were
taken out. -/
theorem pruned {ids : List Text} (h : app.Clean bound)
    (hsame : ∀ id, id ∉ ids → app.minSeq id = bound id) :
    (app.pruneRetainedHistory ids).Clean app.minSeq := by
  refine ⟨?_, ?_, ?_⟩
  · intro id m hm
    simp only [App.pruneRetainedHistory] at hm
    split at hm
    · exact (mem_filterRemoved.mp hm).2
    case isFalse hout =>
      rw [hsame id (by simpa using hout)]
      exact h.listed id m hm
  · intro key item hitem
    have hkept := (Option.filter_eq_some_iff.mp hitem).2
    exact (Bool.not_eq_true' _).mp hkept
  intro row hrow
  obtain ⟨old, -, rfl⟩ := mem_map.mp hrow
  exact visible_sanitize (fun hhidden => hhidden)

end Clean

end App

namespace App.Clean

theorem showMessage {item : MessageItem} (h : app.Clean bound)
    (hvis : hides bound item.key = false) : (app.showMessage item).1.Clean bound := by
  simp only [App.showMessage]
  split
  · exact h
  have hshown : (app.setMessages item.conversationId
      (app.messages item.conversationId ++ [item.toChatMessage])).Clean bound := by
    apply h.setMessages
    intro m hm
    rcases mem_append.mp hm with hold | hnew
    · exact h.listed _ m hold
    rw [mem_singleton.mp hnew]
    exact hvis
  apply Clean.patchConversation
  · split
    · exact hshown.trimMessageWindow _
    exact hshown
  rintro conv - hid -
  simp only [hid]
  exact hvis

theorem appendMessage (now : Nat) {item : MessageItem} (h : app.Clean bound)
    (hitem : Covered app.minSeq bound item.key) : (app.appendMessage now item).1.Clean bound := by
  simp only [App.appendMessage]
  split
  · exact h
  case isFalse hkept =>
    push Not at hkept
    have hvis : hides bound item.key = false :=
      hitem.visible (Bool.eq_false_iff.mpr hkept.2.1)
    have hremem : (app.rememberRaw item).Clean bound := h.rememberRaw hitem
    split
    · exact hremem
    split
    · exact hremem
    split
    · split
      · exact hremem
      exact (hremem.unhideConversation).showMessage hvis
    exact hremem.showMessage hvis

theorem ingestIncoming (now : Nat) {items : List MessageItem} (h : app.Clean bound)
    (hitems : ∀ item ∈ items, Covered app.minSeq bound item.key) :
    (app.ingestIncoming now items).1.Clean bound := by
  induction items generalizing app with
  | nil => exact h
  | cons item items ih =>
    have hfirst : (app.appendMessage now item).1.Clean bound :=
      h.appendMessage now (hitems item mem_cons_self)
    apply ih hfirst
    intro other hother
    rw [minSeq_of_frame (frame_appendMessage app now item)]
    exact hitems other (mem_cons_of_mem _ hother)

end App.Clean

/-- A message of the list that an answer leaves was there, or it is visible and one
of the page or of the list that its request had captured. -/
theorem Room.mem_answer {setting : Setting} {now : Nat} {page : List MessageItem} {isEnd : Bool}
    {s : Room} {request : Request} {m : ChatMessage}
    (hm : m ∈ (s.answer setting now page isEnd request).1.list) :
    m ∈ s.list ∨ removed setting.minSeq m.seq = false ∧
      ((∃ item ∈ page, item.seq = m.seq) ∨ ∃ old ∈ request.captured, old.seq = m.seq) := by
  have hmapped : ∀ m ∈ Messages.mapped setting.minSeq page, ∃ item ∈ page, item.seq = m.seq := by
    intro m hm
    obtain ⟨item, hitem, rfl, -⟩ := mem_mapped hm
    exact ⟨item, hitem, rfl⟩
  have holder : ∀ list, m ∈ Messages.filterRemoved setting.minSeq
      (Messages.mapped setting.minSeq page ++ list) → removed setting.minSeq m.seq = false ∧
          ((∃ item ∈ page, item.seq = m.seq) ∨ ∃ old ∈ list, old.seq = m.seq) := by
    intro list hm
    obtain ⟨hthere, hvis⟩ := mem_filterRemoved.mp hm
    rcases mem_append.mp hthere with hnew | hold
    · exact ⟨hvis, .inl (hmapped m hnew)⟩
    exact ⟨hvis, .inr ⟨m, hold, rfl⟩⟩
  cases request with
  | latest existing target =>
    simp only [answer] at hm
    split at hm
    · exact .inl hm
    right
    obtain ⟨hthere, hvis⟩ := mem_filterRemoved.mp hm
    refine ⟨hvis, ?_⟩
    rcases mem_mergeLocalPending.mp hthere with hnew | ⟨hold, -⟩
    · left
      obtain ⟨read, hread, rfl⟩ := mem_map.mp hnew
      obtain ⟨item, hitem, hseq⟩ := hmapped read hread
      refine ⟨item, hitem, ?_⟩
      split <;> exact hseq
    right
    exact ⟨m, (mem_filterRemoved.mp hold).1, rfl⟩
  | older list =>
    simp only [answer] at hm
    split at hm
    · exact .inl hm
    exact .inr (holder list hm)
  | locating list target pages =>
    simp only [answer] at hm
    split at hm
    · exact .inl hm
    split at hm
    · exact .inr (holder list ((retainFromMessage_sublist target).subset hm))
    exact .inr (holder list hm)
  | opened target => exact .inl hm

namespace App.Clean

theorem setRoom {room : Room} (h : app.Clean bound)
    (hlist : ∀ m ∈ room.list, removed (bound id) m.seq = false) :
    (app.setRoom id room).Clean bound := by
  apply setHistoryEnd
  exact h.setMessages hlist

theorem loaded {request : Request} {items : List MessageItem} {isEnd : Bool} {now : Nat}
    (h : app.Clean bound) (hitems : ∀ item ∈ items, Covered app.minSeq bound (id, item.seq) ∧
      Covered app.minSeq bound item.key)
    (hcapt : ∀ m ∈ request.captured, Covered app.minSeq bound (id, m.seq)) :
    (app.loaded id request items isEnd now).1.Clean bound := by
  simp only [App.loaded]
  generalize hpage : items.filter (fun item => !removed (app.minSeq id) item.seq) = page
  have hthere : ∀ item ∈ page, item ∈ items := by
    intro item hitem
    rw [← hpage] at hitem
    exact mem_of_mem_filter hitem
  have hremem : (app.rememberAll page).Clean bound := by
    apply h.rememberAll
    intro item hitem
    exact (hitems item (hthere item hitem)).2
  have hsame : (app.rememberAll page).minSeq = app.minSeq :=
    minSeq_of_frame (frame_rememberAll app page)
  generalize (isEnd || decide (page.length < items.length)) = isEnd
  have hans : ((app.rememberAll page).setRoom id
      (((app.rememberAll page).room id).answer ((app.rememberAll page).setting id) now page isEnd
        request).1).Clean bound := by
    apply hremem.setRoom
    intro m hm
    rcases Room.mem_answer hm with hold | ⟨hvis, ⟨item, hitem, hseq⟩ | ⟨old, hold, hseq⟩⟩
    · exact hremem.listed id m hold
    · have hcovered := (hitems item (hthere item hitem)).1
      rw [hseq] at hcovered
      apply hcovered.visible
      rw [← hsame]
      exact hvis
    have hcovered := hcapt old hold
    rw [hseq] at hcovered
    apply hcovered.visible
    rw [← hsame]
    exact hvis
  cases request with
  | latest existing target =>
    simp only
    split
    · exact hans
    exact hans.trimMessageWindow id
  | older list | opened target => exact hans
  | locating list target pages => exact hans.deleteRaw _

theorem sendFailed (send : Send) (unavailable : Bool) (h : app.Clean bound) :
    (app.sendFailed id send unavailable).1.Clean bound := by
  have hfailed : (app.replaceMessage id (.placeholder send.serial)
      (send.placeholder .failed)).Clean bound := h.replaceMessage (covered_zero _ _ _)
  simp only [App.sendFailed]
  split
  · exact hfailed.removeExitedGroupConversation id
  exact hfailed

end App.Clean

theorem seq_deliveredMessage (setting : Setting) (send : Send) (item : MessageItem) :
    (Room.deliveredMessage setting send item).seq = item.seq := by
  have hcovered : (withCover setting.mergeVideoContent (send.placeholder .sending)
      item.toChatMessage).seq = item.seq := by
    rw [withCover]
    split
    · rfl
    split <;> rfl
  rw [Room.deliveredMessage]
  split <;> exact hcovered

namespace App.Clean

variable {item : MessageItem} {delivered : ChatMessage}

theorem sent (generation : Nat) (send : Send) (h : app.Clean bound)
    (hhere : Covered app.minSeq bound (id, item.seq)) (hitem : Covered app.minSeq bound item.key) :
    (app.sent generation id send item).1.Clean bound := by
  have hremem : (app.rememberRaw item).Clean bound := h.rememberRaw hitem
  simp only [App.sent]
  split
  · exact hremem.sendFailed send false
  have hdelivered : ((app.rememberRaw item).replaceMessage id (.placeholder send.serial)
      (Room.deliveredMessage ((app.rememberRaw item).setting id) send item)).Clean bound := by
    apply hremem.replaceMessage
    rw [seq_deliveredMessage, minSeq_of_frame (frame_rememberRaw app item)]
    exact hhere
  split
  · exact hdelivered.sendFailed send true
  split
  · split <;> exact hdelivered.unhideConversation
  exact hdelivered

theorem previewSent (h : app.Clean bound) (hhere : Covered app.minSeq bound (id, delivered.seq)) :
    (app.previewSent id delivered).Clean bound := by
  apply h.patchConversation
  intro conv hconv hid
  split
  · exact hconv
  apply visible_sanitize
  simp only [hid]
  exact hhere

theorem reappeared (generation : Nat) (send : Send) (h : app.Clean bound)
    (hhere : Covered app.minSeq bound (id, delivered.seq)) :
    (app.reappeared generation id send delivered).1.Clean bound := by
  simp only [App.reappeared]
  split
  · exact h.sendFailed send false
  exact h.previewSent hhere

end App.Clean

/-- The message of the SDK that a resolved number goes to. -/
def App.resolvedItem (app : App env) (delivered : ChatMessage) (message : Option MessageItem) :
    Option MessageItem :=
  message.or (match delivered.id with
    | .client key => app.shown.rawMessages key
    | .placeholder _ => none)

namespace App.Clean

theorem resolved {delivered : ChatMessage} {seq : Nat} {message : Option MessageItem}
    (h : app.Clean bound) (hhere : Covered app.minSeq bound (id, seq))
    (hitem : ∀ item, app.resolvedItem delivered message = some item →
      Covered app.minSeq bound (item.conversationId, seq)) :
    (app.resolved id delivered seq message).Clean bound := by
  simp only [App.resolved]
  split
  · exact h
  generalize hremem : (if removed (app.minSeq id) seq = true then app.deleteRaw [delivered.id]
      else _ : App env) = remembered
  have hclean : remembered.Clean bound ∧ remembered.frame = app.frame := by
    rw [← hremem]
    split
    · exact ⟨h.deleteRaw _, rfl⟩
    split
    case h_1 item hsome =>
      exact ⟨h.rememberRaw (hitem item hsome), frame_rememberRaw app _⟩
    · exact ⟨h, rfl⟩
  obtain ⟨hclean, hframe⟩ := hclean
  apply Clean.patchConversation
  · apply hclean.replaceMessage
    rw [minSeq_of_frame hframe]
    exact hhere
  intro conv hconv hid
  split
  · apply visible_sanitize
    simp only [hid]
    exact hhere
  exact hconv

end App.Clean

end ImApp.ChatStore
