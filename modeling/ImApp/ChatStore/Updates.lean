import ImApp.ChatStore.Room

/-!
Which changes of a conversation's list survive the requests for its history. A
page replaces the list by what the request captured when it started, so a change
made in between survives only when the page and the part of the captured list
that is kept show it already.
-/

namespace ImApp.ChatStore

open JsonText (Text)
open StepSystem List Option Messages

/-- The message shows that it was revoked or read, if it was. -/
structure Changes.Agrees (changes : Changes) (m : ChatMessage) : Prop where
  revoked : ∀ entry ∈ changes.revoked, m.id = .client entry.1 →
    m.type = .system ∧ m.content = entry.2
  read : ∀ id ∈ changes.read, m.id = .client id → m.hasRead = true

namespace Room

/-- The changes made while history was being loaded are there. Ids are unique.
A message that was sent has one bubble, unless it was deleted, and its
placeholder is gone. -/
structure Safe (s : Room) : Prop where
  unique : s.list.ids.Nodup
  shown : ∀ id ∈ s.recent.shown, id ∈ s.list.ids
  gone : ∀ id ∈ s.recent.gone, id ∉ s.list.ids
  edited : ∀ m ∈ s.list, s.recent.Agrees m
  settled : ∀ send ∈ s.sends, ∀ message, send.message = some message →
    .placeholder send.serial ∉ s.list.ids ∧
      (message.id ∉ s.deleted → s.list.countP (fun m => m.id = message.id) = 1)

/-- The message is not older than the changes made since. -/
structure Current (s : Room) (m : ChatMessage) : Prop where
  present : m.id ∉ s.recent.gone
  agrees : s.recent.Agrees m
  unsettled : ∀ send ∈ s.sends, send.message.isSome = true → m.id ≠ .placeholder send.serial

/-- The messages that the list has to show. -/
def required (s : Room) : List MessageId :=
  s.recent.shown ++ (s.sends.filterMap fun send => send.message.map ChatMessage.id).filter
      (fun id => !s.deleted.contains id)

/-- A page and what is kept of the captured list are current, and they have every
message that the list has to show. -/
structure UpToDate (s : Room) (page kept : Messages) : Prop where
  pageCurrent : ∀ m ∈ page, s.Current m
  keptCurrent : ∀ m ∈ kept, m.id ∉ page.ids → s.Current m
  complete : ∀ id ∈ s.required, id ∈ page.ids ∨ id ∈ kept.ids

instance (changes : Changes) (m : ChatMessage) : Decidable (changes.Agrees m) :=
  decidable_of_iff _ ⟨fun h => ⟨h.1, h.2⟩, fun h => And.intro h.revoked h.read⟩

instance (s : Room) (m : ChatMessage) : Decidable (s.Current m) :=
  decidable_of_iff (_ ∧ _ ∧ _) ⟨fun h => ⟨h.1, h.2.1, h.2.2⟩,
    fun h => ⟨h.present, h.agrees, h.unsettled⟩⟩

instance (s : Room) (page kept : Messages) : Decidable (s.UpToDate page kept) :=
  decidable_of_iff (_ ∧ _ ∧ _) ⟨fun h => ⟨h.1, h.2.1, h.2.2⟩,
    fun h => ⟨h.pageCurrent, h.keptCurrent, h.complete⟩⟩

/-- The history has each message once. The page of a request is up to date, with
the part of the captured list that the request keeps. -/
def PageUpToDate (setting : Setting) (s : Room) (now : Nat) (page : List MessageItem) :
    Request → Prop
  | .latest existing _ =>
    let history := Messages.mapped setting.minSeq page
    history = [] ∧ existing ≠ [] ∨ history.ids.Nodup ∧
      s.UpToDate (Messages.withRead existing history)
        (existing.filter (fun m => Messages.keptLocally now m))
  | .older list =>
    let history := Messages.mapped setting.minSeq page
    history = [] ∨ (Messages.ids (history ++ list)).Nodup ∧ s.UpToDate history list
  | .locating list target _ =>
    let history := Messages.mapped setting.minSeq page
    page = [] ∨ (Messages.ids (history ++ list)).Nodup ∧
      s.UpToDate (Messages.retainFromMessage target (history ++ list)) []
  | .opened _ => True

/-- What is put into the list shows what happened to the message before, and it is
not hidden. -/
def PutUpToDate (setting : Setting) (s : Room) (message : ChatMessage) : Prop :=
  removed setting.minSeq message.seq = false ∧ s.recent.Agrees message

instance (setting : Setting) (s : Room) (now : Nat) (page : List MessageItem) :
    ∀ request, Decidable (s.PageUpToDate setting now page request)
  | .latest _ _ => inferInstanceAs (Decidable (_ ∨ _))
  | .older _ => inferInstanceAs (Decidable (_ ∨ _))
  | .locating _ _ _ => inferInstanceAs (Decidable (_ ∨ _))
  | .opened _ => inferInstanceAs (Decidable True)

instance (setting : Setting) (s : Room) (message : ChatMessage) :
    Decidable (s.PutUpToDate setting message) :=
  inferInstanceAs (Decidable (_ ∧ _))

/-- Nothing that arrives is older than what happened while history was loading. -/
def Allowed (setting : Setting) (s : Room) : Action → Prop
  | .receive item =>
    s.list.has (.client item.clientMsgID) = true ∨ s.recent.Agrees item.toChatMessage
  | .page index page _ now =>
    ∀ request ∈ s.requests[index]?, s.PageUpToDate setting now page request
  | .sent index item =>
    ∀ send ∈ s.sends[index]?, s.PutUpToDate setting (deliveredMessage setting send item)
  | .resolved index seq =>
    ∀ send ∈ s.sends[index]?, ∀ message ∈ send.message,
      seq = 0 ∨ s.list.has message.id = false ∨ s.PutUpToDate setting { message with seq }
  | _ => True

instance (setting : Setting) (s : Room) : ∀ action, Decidable (s.Allowed setting action)
  | .receive _ => inferInstanceAs (Decidable (_ ∨ _))
  | .page index page _ now => inferInstanceAs
      (Decidable (∀ request ∈ s.requests[index]?, s.PageUpToDate setting now page request))
  | .sent index item => inferInstanceAs (Decidable
      (∀ send ∈ s.sends[index]?, s.PutUpToDate setting (deliveredMessage setting send item)))
  | .resolved index seq => inferInstanceAs (Decidable
      (∀ send ∈ s.sends[index]?, ∀ message ∈ send.message,
        seq = 0 ∨ s.list.has message.id = false ∨ s.PutUpToDate setting { message with seq }))
  | .revoke _ _ => inferInstanceAs (Decidable True)
  | .readReceipts _ => inferInstanceAs (Decidable True)
  | .removeLocal _ => inferInstanceAs (Decidable True)
  | .clearHistory => inferInstanceAs (Decidable True)
  | .loadMessages => inferInstanceAs (Decidable True)
  | .loadMoreMessages => inferInstanceAs (Decidable True)
  | .locateMessage _ => inferInstanceAs (Decidable True)
  | .pageFailed _ => inferInstanceAs (Decidable True)
  | .markedRead _ => inferInstanceAs (Decidable True)
  | .prepareOutgoingImage _ _ => inferInstanceAs (Decidable True)
  | .deliverOutgoingImage _ _ _ => inferInstanceAs (Decidable True)
  | .send _ _ _ => inferInstanceAs (Decidable True)
  | .sendFailed _ _ => inferInstanceAs (Decidable True)
  | .reappeared _ => inferInstanceAs (Decidable True)

/-- A list that the store made: its ids are unique, nothing in it is hidden, and
its placeholders were issued. -/
structure WellListed (setting : Setting) (issued : Nat) (list : Messages) : Prop where
  unique : list.ids.Nodup
  visible : ∀ m ∈ list, removed setting.minSeq m.seq = false
  issued : ∀ serial, .placeholder serial ∈ list.ids → serial ≤ issued

structure Invariant (setting : Setting) (s : Room) : Prop where
  listed : WellListed setting s.placeholderSeq s.list
  current : ∀ m ∈ s.list, s.Current m
  complete : ∀ id ∈ s.required, id ∈ s.list.ids
  captured : ∀ request ∈ s.requests, WellListed setting s.placeholderSeq request.captured
  serials : (s.sends.map Send.serial).Nodup
  issued : ∀ send ∈ s.sends, send.serial ≤ s.placeholderSeq
  client : ∀ send ∈ s.sends, ∀ message, send.message = some message → ∃ id, message.id = .client id

variable {setting : Setting} {s : Room} {list : Messages} {m message : ChatMessage} {id : MessageId}

theorem mem_required : id ∈ s.required ↔ id ∈ s.recent.shown ∨
    (∃ send ∈ s.sends, ∃ message, send.message = some message ∧ message.id = id) ∧
      id ∉ s.deleted := by
  simp only [required, mem_append, mem_filter, mem_filterMap,
    map_eq_some_iff, Bool.not_eq_true', contains_eq_mem, decide_eq_false_iff_not]

theorem Invariant.safe (h : Invariant setting s) : s.Safe := by
  refine ⟨h.listed.unique, ?_, ?_, fun m hm => (h.current m hm).agrees, ?_⟩
  · intro id hid
    exact h.complete id (mem_required.mpr (.inl hid))
  · intro id hid hthere
    obtain ⟨m, hm, rfl⟩ := mem_ids.mp hthere
    exact (h.current m hm).present hid
  intro send hsend message hmsg
  constructor
  · intro hthere
    obtain ⟨m, hm, hid⟩ := mem_ids.mp hthere
    exact (h.current m hm).unsettled send hsend (by rw [hmsg]; rfl) hid
  intro hkept
  have hthere := h.complete message.id
    (mem_required.mpr (.inr ⟨⟨send, hsend, message, hmsg, rfl⟩, hkept⟩))
  have hcount := count_eq_one_of_mem h.listed.unique hthere
  rw [Messages.ids, List.count, countP_map] at hcount
  rw [← hcount]
  apply countP_congr
  intro m _
  simp [Function.comp_apply]

/-- Changes that ask for no more than others. -/
structure Weaker (s : Room) (changes : Changes) : Prop where
  gone : ∀ id ∈ s.recent.gone, id ∈ changes.gone
  revoked : ∀ entry ∈ s.recent.revoked, entry ∈ changes.revoked
  read : ∀ id ∈ s.recent.read, id ∈ changes.read

theorem Current.weaken {t : Room} (h : s.Current m) (hweaker : t.Weaker s.recent)
    (hsends : t.sends = s.sends) : t.Current m := by
  refine ⟨fun hgone => h.present (hweaker.gone _ hgone), ⟨?_, ?_⟩, ?_⟩
  · intro entry hentry
    exact h.agrees.revoked entry (hweaker.revoked entry hentry)
  · intro id hid
    exact h.agrees.read id (hweaker.read id hid)
  rw [hsends]
  exact h.unsettled

theorem Invariant.relist (h : Invariant setting s) {t : Room} (hlisted :
      WellListed setting t.placeholderSeq t.list)
    (hcur : ∀ m ∈ t.list, t.Current m) (hcompl : ∀ id ∈ t.required, id ∈ t.list.ids)
    (hserial : t.placeholderSeq = s.placeholderSeq) (hrequests : t.requests = s.requests)
    (hsends : t.sends = s.sends) : Invariant setting t := by
  refine ⟨hlisted, hcur, hcompl, ?_, ?_, ?_, ?_⟩
  · rw [hserial, hrequests]
    exact h.captured
  · rw [hsends]
    exact h.serials
  · rw [hserial, hsends]
    exact h.issued
  rw [hsends]
  exact h.client

theorem WellListed.sublist {issued : Nat} {smaller : Messages} (h : WellListed setting issued list)
    (hsub : smaller.Sublist list) : WellListed setting issued smaller where
  unique := h.unique.sublist (hsub.map ChatMessage.id)
  visible := fun m hm => h.visible m (hsub.subset hm)
  issued := fun serial hserial =>
    h.issued serial ((hsub.map ChatMessage.id).subset hserial)

theorem WellListed.edit {issued : Nat} {edit : ChatMessage → ChatMessage}
    (h : WellListed setting issued list) (hid : ∀ m, (edit m).id = m.id)
    (hseq : ∀ m, (edit m).seq = m.seq) : WellListed setting issued (list.map edit) := by
  have hids : Messages.ids (list.map edit) = list.ids := ids_map hid
  refine ⟨by rw [hids]; exact h.unique, ?_, by rw [hids]; exact h.issued⟩
  intro m hm
  obtain ⟨old, hold, rfl⟩ := mem_map.mp hm
  rw [hseq]
  exact h.visible old hold

theorem WellListed.append {issued : Nat} (h : WellListed setting issued list)
    (hnew : message.id ∉ list.ids) (hvis : removed setting.minSeq message.seq = false)
    (hissued : ∀ serial, message.id = .placeholder serial → serial ≤ issued) :
    WellListed setting issued (list ++ [message]) := by
  refine ⟨?_, ?_, ?_⟩
  · rw [ids_append]
    refine List.Nodup.append h.unique (nodup_singleton _) ?_
    intro id hid hlast
    rw [mem_singleton.mp hlast] at hid
    exact hnew hid
  · intro m hm
    rcases mem_append.mp hm with hm | hm
    · exact h.visible m hm
    rw [mem_singleton.mp hm]
    exact hvis
  intro serial hserial
  rw [ids_append] at hserial
  rcases mem_append.mp hserial with hserial | hserial
  · exact h.issued serial hserial
  exact hissued serial (mem_singleton.mp hserial).symm

theorem required_show {t : Room} (hsends : t.sends = s.sends)
    (hshown : t.recent.shown ⊆ id :: s.recent.shown)
    (hdeleted : ∀ other ∈ s.deleted, other = id ∨ other ∈ t.deleted) {other : MessageId}
    (h : other ∈ t.required) : other = id ∨ other ∈ s.required := by
  rw [mem_required] at h
  rcases h with hother | ⟨hset, hkept⟩
  · rcases mem_cons.mp (hshown hother) with rfl | hother
    · exact .inl rfl
    exact .inr (mem_required.mpr (.inl hother))
  by_cases hid : other = id
  · exact .inl hid
  rw [hsends] at hset
  refine .inr (mem_required.mpr (.inr ⟨hset, fun hmem => ?_⟩))
  exact hkept ((hdeleted other hmem).resolve_left hid)

theorem show_subset (tracked : Bool) (changes : Changes) :
    (changes.show_ tracked id).shown ⊆ id :: changes.shown := by
  rw [Changes.show_]
  split
  · exact List.Subset.refl _
  exact subset_cons_self ..

theorem mem_filter_ne {deleted : List MessageId} :
    ∀ other ∈ deleted, other = id ∨ other ∈ deleted.filter (fun other => other ≠ id) := by
  intro other hother
  simpa [hother] using em (other = id)

section

variable (h : Invariant setting s)
include h

theorem Invariant.append {t : Room} (hlist : t.list = s.list ++ [message])
    (hrecent : t.recent = s.recent.show_ s.inFlight message.id)
    (hdeleted : ∀ other ∈ s.deleted, other = message.id ∨ other ∈ t.deleted)
    (hlisted : WellListed setting t.placeholderSeq t.list) (hagrees : s.recent.Agrees message)
    (hunsettled : ∀ send ∈ s.sends, send.message.isSome = true →
      message.id ≠ .placeholder send.serial)
    (hserial : t.placeholderSeq = s.placeholderSeq) (hrequests : t.requests = s.requests)
    (hsends : t.sends = s.sends) : Invariant setting t := by
  refine h.relist hlisted ?_ ?_ hserial hrequests hsends
  · intro m hm
    rw [hlist] at hm
    rcases mem_append.mp hm with hm | hm
    · refine (h.current m hm).weaken ⟨?_, ?_, ?_⟩ hsends
      all_goals simp +contextual [hrecent, Changes.show_]
    obtain rfl := mem_singleton.mp hm
    refine ⟨?_, ⟨?_, ?_⟩, by rw [hsends]; exact hunsettled⟩
    · simp [hrecent, Changes.show_]
    · rw [hrecent]
      exact hagrees.revoked
    rw [hrecent]
    exact hagrees.read
  intro id hid
  rw [hlist, ids_append]
  rcases required_show hsends (by rw [hrecent]; exact show_subset ..) hdeleted hid with
    rfl | hid
  · exact mem_append_right _ (mem_singleton.mpr rfl)
  exact mem_append_left _ (h.complete id hid)

theorem Invariant.receive (item : MessageItem)
    (hagrees : s.list.has (.client item.clientMsgID) = true ∨
      s.recent.Agrees item.toChatMessage) : Invariant setting (s.receive setting item) := by
  rw [Room.receive]
  split
  · exact h
  case isFalse hnew =>
    simp only [Bool.or_eq_true, not_or, Bool.not_eq_true] at hnew
    have habsent : s.list.has item.toChatMessage.id = false := hnew.2
    have happend : s.list.appendMessage item.toChatMessage = s.list ++ [item.toChatMessage] := by
      rw [Messages.appendMessage, habsent]
      rfl
    refine h.append happend rfl mem_filter_ne ?_ ?_ ?_ rfl rfl rfl
    · rw [happend]
      refine h.listed.append ?_ hnew.1.1 ?_
      · rw [← has_iff, habsent]
        exact Bool.false_ne_true
      rintro serial ⟨⟩
    · exact hagrees.resolve_left (by rw [hnew.2]; exact Bool.false_ne_true)
    rintro send _ _ ⟨⟩

theorem Invariant.dropRevokedMessage (clientMsgId tip : Text) :
    Invariant setting (s.dropRevokedMessage clientMsgId tip) := by
  rw [Room.dropRevokedMessage]
  split
  case isFalse => exact h
  refine h.relist (h.listed.edit ?_ ?_) ?_ ?_ rfl rfl rfl
  · intro m
    split <;> rfl
  · intro m
    split <;> rfl
  · intro m hm
    obtain ⟨old, hold, rfl⟩ := mem_map.mp hm
    have hcur := h.current old hold
    split
    case isTrue hid =>
      refine ⟨hcur.present, ⟨?_, hcur.agrees.read⟩, hcur.unsettled⟩
      intro entry hentry hsame
      obtain rfl : entry.1 = clientMsgId := by
        simpa using hsame.symm.trans hid
      have htip : entry.2 = tip := by
        simp only [Changes.revoke] at hentry
        split at hentry <;> simp at hentry
        rw [hentry]
      exact ⟨rfl, htip.symm⟩
    case isFalse hid =>
      refine ⟨hcur.present, ⟨?_, hcur.agrees.read⟩, hcur.unsettled⟩
      intro entry hentry hsame
      refine hcur.agrees.revoked entry ?_ hsame
      have hne : entry.1 ≠ clientMsgId := by
        rintro rfl
        exact hid hsame
      simp only [Changes.revoke] at hentry
      split at hentry
      · rcases mem_cons.mp hentry with rfl | hentry
        · exact absurd rfl hne
        exact (mem_filter.mp hentry).1
      exact (mem_filter.mp hentry).1
  intro id hid
  rw [ids_dropRevokedMessage]
  exact h.complete id hid

theorem Invariant.ingestReadReceipts (msgIds : List Text) :
    Invariant setting (s.ingestReadReceipts msgIds) := by
  refine h.relist (h.listed.edit ?_ ?_) ?_ ?_ rfl rfl rfl
  · intro m
    split <;> rfl
  · intro m
    split <;> rfl
  · intro m hm
    obtain ⟨old, hold, rfl⟩ := mem_map.mp hm
    have hcur := h.current old hold
    have hread : ∀ id ∈ (s.ingestReadReceipts msgIds).recent.read, id ∈ msgIds ∨
        id ∈ s.recent.read := by
      intro id hid
      simp only [Room.ingestReadReceipts, Changes.markRead] at hid
      split at hid
      · rcases mem_append.mp hid with hid | hid
        · exact .inl (mem_filter.mp hid).1
        exact .inr hid
      exact .inr hid
    split
    case isTrue =>
      exact ⟨hcur.present, ⟨hcur.agrees.revoked, fun _ _ _ => rfl⟩, hcur.unsettled⟩
    case isFalse hid =>
      refine ⟨hcur.present, ⟨hcur.agrees.revoked, ?_⟩, hcur.unsettled⟩
      intro id hmem hsame
      rcases hread id hmem with hmem | hmem
      · exact absurd (any_eq_true.mpr ⟨id, hmem, decide_eq_true hsame⟩) hid
      exact hcur.agrees.read id hmem hsame
  intro id hid
  rw [Room.ingestReadReceipts, ids_markLoadedMessagesRead]
  exact h.complete id hid

end

theorem required_remove {t : Room} {ids : List MessageId} (hsends : t.sends = s.sends)
    (hrecent : t.recent = s.recent.remove s.inFlight ids)
    (hdeleted : t.deleted = ids ++ s.deleted) (h : id ∈ t.required) :
    id ∈ s.required ∧ id ∉ ids := by
  rw [mem_required, hrecent, hsends, hdeleted] at h
  rcases h with hshown | ⟨hset, hkept⟩
  · have hmem := mem_filter.mp hshown
    exact ⟨mem_required.mpr (.inl hmem.1), by simpa using hmem.2⟩
  rw [mem_append, not_or] at hkept
  exact ⟨mem_required.mpr (.inr ⟨hset, hkept.2⟩), hkept.1⟩

theorem Invariant.removeLocal (h : Invariant setting s) (id : MessageId) :
    Invariant setting (s.removeLocal id) := by
  refine h.relist (h.listed.sublist filter_sublist) ?_ ?_ rfl rfl rfl
  · intro m hm
    obtain ⟨hmem, hne⟩ := mem_filter.mp hm
    have hcur := h.current m hmem
    refine ⟨?_, ⟨?_, ?_⟩, hcur.unsettled⟩
    · intro hgone
      simp only [Room.removeLocal, Changes.remove] at hgone
      split at hgone
      · rcases mem_append.mp hgone with hgone | hgone
        · simp [mem_singleton.mp hgone] at hne
        exact hcur.present hgone
      exact hcur.present hgone
    · intro entry hentry
      exact hcur.agrees.revoked entry (mem_filter.mp hentry).1
    intro other hother
    exact hcur.agrees.read other (mem_filter.mp hother).1
  intro other hother
  obtain ⟨hrequired, hne⟩ := @required_remove s other (s.removeLocal id) [id] rfl rfl rfl hother
  obtain ⟨m, hm, rfl⟩ := mem_ids.mp (h.complete other hrequired)
  refine mem_ids_of_mem (mem_filter.mpr ⟨hm, ?_⟩)
  simpa using hne

theorem Invariant.clearHistory (h : Invariant setting s) : Invariant setting s.clearHistory := by
  refine h.relist (h.listed.sublist (nil_sublist _)) ?_ ?_ rfl rfl rfl
  · intro m hm
    cases hm
  intro id hid
  obtain ⟨hrequired, hne⟩ := @required_remove s id s.clearHistory s.list.ids rfl rfl rfl hid
  exact absurd (h.complete id hrequired) hne

theorem Invariant.request (h : Invariant setting s) {request : Request}
    (hcapt : WellListed setting s.placeholderSeq request.captured) :
    Invariant setting (s.request request) := by
  have hweaker : (s.request request).Weaker s.recent := by
    cases hflight : s.inFlight with
    | true => constructor <;> simp [Room.request, hflight]
    | false => constructor <;> simp [Room.request, hflight, Changes.none]
  refine ⟨h.listed, fun m hm => (h.current m hm).weaken hweaker rfl, ?_, ?_, h.serials, h.issued,
    h.client⟩
  · intro id hid
    apply h.complete
    rw [mem_required] at hid ⊢
    refine hid.imp_left (fun hshown => ?_)
    cases hflight : s.inFlight with
    | true => simpa [Room.request, hflight] using hshown
    | false => simp [Room.request, hflight, Changes.none] at hshown
  intro other hother
  rcases mem_append.mp hother with hother | hother
  · exact h.captured other hother
  rw [mem_singleton.mp hother]
  exact hcapt

theorem captured_nextPage {target : Text} {pages : Nat} {next : Request}
    (h : s.nextPage target pages = some next) : next.captured = s.list := by
  cases pages with
  | zero => cases h
  | succ pages =>
    rw [nextPage] at h
    split at h
    · cases h
    rw [← some.inj h]
    rfl

theorem captured_locateFrom {target : Text} {next : Request}
    (h : s.locateFrom target = some next) : next.captured = s.list := by
  rw [locateFrom] at h
  split at h
  · cases h
  exact captured_nextPage h

section

variable (h : Invariant setting s)
include h

theorem Invariant.locateMessage (target : Text) : Invariant setting (s.locateMessage target) := by
  rw [Room.locateMessage]
  split
  · exact h
  split
  · exact h.request h.listed
  cases hnext : s.locateFrom target with
  | none => exact h
  | some next =>
    apply h.request
    rw [captured_locateFrom hnext]
    exact h.listed

theorem Invariant.loadMoreMessages : Invariant setting s.loadMoreMessages := by
  rw [Room.loadMoreMessages]
  split
  · exact h
  exact h.request h.listed

theorem Invariant.finish (index : Nat) {next : Option Request}
    (hnext : ∀ request, next = some request →
      WellListed setting s.placeholderSeq request.captured) :
    Invariant setting (s.finish index next) := by
  refine ⟨h.listed, fun m hm => (h.current m hm).weaken ⟨fun _ h => h, fun _ h => h, fun _ h => h⟩
    rfl, h.complete, ?_, h.serials, h.issued, h.client⟩
  intro request hreq
  cases next with
  | none => exact h.captured request (mem_of_mem_eraseIdx hreq)
  | some after =>
    rcases mem_or_eq_of_mem_set hreq with hreq | rfl
    · exact h.captured request hreq
    exact hnext request rfl

theorem Invariant.rebuild {list : Messages} (historyEnd : Bool)
    (hlisted : WellListed setting s.placeholderSeq list) (hcur : ∀ m ∈ list, s.Current m)
    (hcompl : ∀ id ∈ s.required, id ∈ list.ids) :
    Invariant setting { s with list, historyEnd } :=
  h.relist hlisted (fun m hm =>
    (hcur m hm).weaken ⟨fun _ h => h, fun _ h => h, fun _ h => h⟩ rfl) hcompl rfl rfl rfl

theorem Invariant.noteEnd (historyEnd : Bool) : Invariant setting { s with historyEnd } :=
  h.rebuild historyEnd h.listed h.current h.complete

end

theorem visible_mapped {page : List MessageItem}
    (h : m ∈ Messages.mapped setting.minSeq page) : removed setting.minSeq m.seq = false := by
  obtain ⟨_, _, _, hvis⟩ := mem_mapped h
  exact hvis

theorem client_mapped {page : List MessageItem} {serial : Nat} :
    .placeholder serial ∉ (Messages.mapped setting.minSeq page).ids := by
  intro hmem
  obtain ⟨m, hm, hid⟩ := mem_ids.mp hmem
  obtain ⟨item, _, rfl, _⟩ := mem_mapped hm
  cases hid

theorem WellListed.prepend {issued : Nat} (h : WellListed setting issued list)
    (page : List MessageItem)
    (hunique : (Messages.ids (Messages.mapped setting.minSeq page ++ list)).Nodup) :
    WellListed setting issued (Messages.mapped setting.minSeq page ++ list) := by
  refine ⟨hunique, ?_, ?_⟩
  · intro m hm
    rcases mem_append.mp hm with hm | hm
    · exact visible_mapped hm
    exact h.visible m hm
  intro serial hserial
  rw [ids_append] at hserial
  rcases mem_append.mp hserial with hserial | hserial
  · exact absurd hserial client_mapped
  exact h.issued serial hserial

theorem WellListed.merge {issued : Nat} (h : WellListed setting issued list)
    (page : List MessageItem) (now : Nat)
    (hunique : (Messages.mapped setting.minSeq page).ids.Nodup) :
    WellListed setting issued (Messages.mergeLocalPending now
      (Messages.withRead list (Messages.mapped setting.minSeq page)) list) := by
  refine ⟨?_, ?_, ?_⟩
  · refine nodup_mergeLocalPending ?_ h.unique
    rw [ids_withRead]
    exact hunique
  · intro m hm
    rcases mem_mergeLocalPending.mp hm with hm | ⟨hm, _, _⟩
    · obtain ⟨old, hold, rfl⟩ := mem_map.mp hm
      have hseq := visible_mapped hold
      split <;> exact hseq
    exact h.visible m hm
  intro serial hserial
  obtain ⟨m, hm, hid⟩ := mem_ids.mp hserial
  rcases mem_mergeLocalPending.mp hm with hm | ⟨hm, _, _⟩
  · have hpage := mem_ids_of_mem hm
    rw [ids_withRead, hid] at hpage
    exact absurd hpage client_mapped
  exact h.issued serial (hid ▸ mem_ids_of_mem hm)

theorem Invariant.mergeLocalPending (h : Invariant setting s) {existing : Messages}
    (hexisting : WellListed setting s.placeholderSeq existing) (page : List MessageItem) (now : Nat)
    (historyEnd : Bool) (hunique : (Messages.mapped setting.minSeq page).ids.Nodup)
    (hpage : s.UpToDate (Messages.withRead existing (Messages.mapped setting.minSeq page))
      (existing.filter (fun m => Messages.keptLocally now m))) :
    Invariant setting { s with
      list := Messages.filterRemoved setting.minSeq (Messages.mergeLocalPending now
        (Messages.withRead existing (Messages.mapped setting.minSeq page)) existing)
      historyEnd } := by
  have hlisted := hexisting.merge page now hunique
  rw [filterRemoved_eq hlisted.visible]
  refine h.rebuild historyEnd hlisted ?_ ?_
  · intro m hm
    rcases mem_mergeLocalPending.mp hm with hm | ⟨hm, hnew, hkept⟩
    · exact hpage.pageCurrent m hm
    exact hpage.keptCurrent m (mem_filter.mpr ⟨hm, hkept⟩) hnew
  intro id hid
  by_cases hthere : id ∈ (Messages.withRead existing (Messages.mapped setting.minSeq page)).ids
  · obtain ⟨m, hm, rfl⟩ := mem_ids.mp hthere
    exact mem_ids_of_mem (mem_mergeLocalPending.mpr (.inl hm))
  obtain ⟨m, hm, rfl⟩ :=
    mem_ids.mp ((hpage.complete id hid).resolve_left hthere)
  obtain ⟨hmem, hkept⟩ := mem_filter.mp hm
  exact mem_ids_of_mem (mem_mergeLocalPending.mpr (.inr ⟨hmem, hthere, hkept⟩))

theorem Invariant.prepend (h : Invariant setting s) (historyEnd : Bool)
    (hlisted : WellListed setting s.placeholderSeq list) {page kept : Messages}
    (hlist : list = page ++ kept) (hpage : s.UpToDate page kept) :
    Invariant setting { s with list, historyEnd } := by
  refine h.rebuild historyEnd hlisted ?_ ?_
  · intro m hm
    by_cases hthere : m ∈ page
    · exact hpage.pageCurrent m hthere
    rw [hlist] at hm
    have hkept := (mem_append.mp hm).resolve_left hthere
    refine hpage.keptCurrent m hkept ?_
    intro hid
    have hunique := hlisted.unique
    rw [hlist, ids_append] at hunique
    exact disjoint_of_nodup_append hunique hid (mem_ids_of_mem hkept)
  intro id hid
  rw [hlist, ids_append]
  exact mem_append.mpr (hpage.complete id hid)

theorem retainFromMessage_absent {target : Text} (h : list.has (.client target) = false) :
    list.retainFromMessage target = list := by
  rw [Messages.retainFromMessage, findIdx?_eq_none_iff.mpr]
  intro m hm
  have hnone := any_eq_false.mp h m hm
  simpa using hnone

theorem Invariant.answer (h : Invariant setting s) {request : Request} (now : Nat)
    (page : List MessageItem) (isEnd : Bool)
    (hcapt : WellListed setting s.placeholderSeq request.captured)
    (hpage : s.PageUpToDate setting now page request) :
    Invariant setting (s.answer setting now page isEnd request).1 ∧
      ∀ next, (s.answer setting now page isEnd request).2 = some next → next.captured = [] ∨
          next.captured = (s.answer setting now page isEnd request).1.list := by
  cases request with
  | latest existing target =>
    have hexisting : existing.filterRemoved setting.minSeq = existing :=
      filterRemoved_eq hcapt.visible
    simp only [Room.answer, hexisting]
    have hnext : ∀ next, target.map Request.opened = some next → next.captured = [] := by
      intro next hnext
      obtain ⟨_, _, rfl⟩ := map_eq_some_iff.mp hnext
      rfl
    split
    case isTrue => exact ⟨h.noteEnd false, fun next hnone => .inl (hnext next hnone)⟩
    case isFalse hskip =>
      obtain ⟨hunique, hcur⟩ := hpage.resolve_left hskip
      exact ⟨h.mergeLocalPending hcapt page now isEnd hunique hcur,
        fun next hnone => .inl (hnext next hnone)⟩
  | older list =>
    have hcapt : WellListed setting s.placeholderSeq list := hcapt
    rw [Room.answer]
    split
    case isTrue => exact ⟨h.noteEnd isEnd, by rintro _ ⟨⟩⟩
    case isFalse hsome =>
      obtain ⟨hunique, hcur⟩ := hpage.resolve_left hsome
      have hlisted := hcapt.prepend page hunique
      refine ⟨?_, by rintro _ ⟨⟩⟩
      rw [filterRemoved_eq hlisted.visible]
      exact h.prepend isEnd hlisted rfl hcur
  | locating list target pages =>
    have hcapt : WellListed setting s.placeholderSeq list := hcapt
    rw [Room.answer]
    split
    case isTrue => exact ⟨h.noteEnd isEnd, by rintro _ ⟨⟩⟩
    case isFalse hsome =>
      obtain ⟨hunique, hcur⟩ := hpage.resolve_left hsome
      have hlisted := hcapt.prepend page hunique
      simp only [filterRemoved_eq hlisted.visible]
      split
      case isTrue =>
        refine ⟨?_, by rintro _ ⟨⟩⟩
        exact h.prepend _ (hlisted.sublist (retainFromMessage_sublist target))
          (append_nil _).symm hcur
      case isFalse hmiss =>
        rw [retainFromMessage_absent (Bool.eq_false_iff.mpr hmiss)] at hcur
        refine ⟨h.prepend isEnd hlisted (append_nil _).symm hcur, ?_⟩
        intro next hnext
        split at hnext
        · cases hnext
        exact .inr (captured_nextPage hnext)
  | opened target =>
    exact ⟨h, fun next hnext => .inr (captured_locateFrom hnext)⟩

theorem Invariant.arrive (h : Invariant setting s) {index : Nat} {request : Request}
    (hreq : s.requests[index]? = some request) (page : List MessageItem) (isEnd : Bool)
    (now : Nat) (hpage : s.PageUpToDate setting now page request) :
    Invariant setting (s.arrive setting index request page isEnd now) := by
  obtain ⟨hanswer, hnext⟩ :=
    h.answer now page isEnd (h.captured request (mem_of_getElem? hreq)) hpage
  apply hanswer.finish
  intro next hsome
  rcases hnext next hsome with hnone | hlist
  · rw [hnone]
    exact hanswer.listed.sublist (nil_sublist _)
  rw [hlist]
  exact hanswer.listed

theorem agrees_placeholder (changes : Changes) {serial : Nat} (hid : m.id = .placeholder serial) :
    changes.Agrees m := by
  constructor
  · intro entry _ hclient
    cases hid.symm.trans hclient
  intro id _ hclient
  cases hid.symm.trans hclient

section

variable (h : Invariant setting s)
include h

theorem Invariant.addSend {send : Send}
    (hserial : send.serial = s.placeholderSeq + 1) (hmsg : send.message = none) :
    Invariant setting
      { s with placeholderSeq := s.placeholderSeq + 1, sends := s.sends ++ [send] } := by
  have hlater : ∀ {list : Messages}, WellListed setting s.placeholderSeq list →
      WellListed setting (s.placeholderSeq + 1) list := fun hlist =>
    ⟨hlist.unique, hlist.visible, fun serial hmem => (hlist.issued serial hmem).trans
      (Nat.le_succ _)⟩
  refine ⟨hlater h.listed, ?_, ?_, fun request hreq => hlater (h.captured request hreq), ?_, ?_, ?_⟩
  · intro m hm
    have hcur := h.current m hm
    refine ⟨hcur.present, hcur.agrees, ?_⟩
    intro other hother hsome
    rcases mem_append.mp hother with hother | hother
    · exact hcur.unsettled other hother hsome
    rw [mem_singleton.mp hother, hmsg] at hsome
    cases hsome
  · intro id hid
    apply h.complete
    rw [mem_required] at hid ⊢
    refine hid.imp_right (And.imp_left ?_)
    rintro ⟨other, hother, message, hsome, rfl⟩
    rcases mem_append.mp hother with hother | hother
    · exact ⟨other, hother, message, hsome, rfl⟩
    rw [mem_singleton.mp hother, hmsg] at hsome
    cases hsome
  · rw [map_append]
    refine List.Nodup.append h.serials (nodup_singleton _) ?_
    intro serial hmem hlast
    obtain ⟨other, hother, rfl⟩ := mem_map.mp hmem
    have hle := h.issued other hother
    have heq : other.serial = send.serial := mem_singleton.mp hlast
    omega
  · intro other hother
    rcases mem_append.mp hother with hother | hother
    · exact (h.issued other hother).trans (Nat.le_succ _)
    rw [mem_singleton.mp hother, hserial]
  intro other hother message hsome
  rcases mem_append.mp hother with hother | hother
  · exact h.client other hother message hsome
  rw [mem_singleton.mp hother, hmsg] at hsome
  cases hsome

theorem Invariant.insertPlaceholder (type : MessageType)
    (content : Text) (createdAt : Nat) {stage : Stage}
    (hstage : ∀ serial, (Send.mk serial type content createdAt stage).message = none) :
    Invariant setting (s.insertPlaceholder type content createdAt stage) := by
  have hfresh : .placeholder (s.placeholderSeq + 1) ∉ s.list.ids := by
    intro hmem
    exact absurd (h.listed.issued _ hmem) (Nat.not_succ_le_self _)
  let send : Send := ⟨s.placeholderSeq + 1, type, content, createdAt, stage⟩
  have hstarted := h.addSend rfl (hstage send.serial)
  refine hstarted.append rfl rfl (fun _ h => .inr h) ?_ (agrees_placeholder _ rfl) ?_ rfl rfl rfl
  · refine hstarted.listed.append hfresh rfl ?_
    rintro _ ⟨⟩
    exact Nat.le_refl _
  intro other hother hsome hid
  obtain rfl : other = send := by
    refine inj_on_of_nodup_map hstarted.serials hother ?_ (MessageId.placeholder.inj hid).symm
    exact mem_append_right _ (mem_singleton.mpr rfl)
  rw [hstage] at hsome
  cases hsome

theorem Invariant.setStage {index : Nat} {send : Send}
    (hsend : s.sends[index]? = some send) {after : Send} (hserial : after.serial = send.serial)
    (hafter : ∀ message, after.message = some message →
      (∃ id, message.id = .client id) ∧ .placeholder send.serial ∉ s.list.ids ∧
        (message.id ∉ s.deleted → message.id ∈ s.list.ids)) :
    Invariant setting { s with sends := s.sends.set index after } := by
  refine ⟨h.listed, ?_, ?_, h.captured, ?_, ?_, ?_⟩
  · intro m hm
    have hcur := h.current m hm
    refine ⟨hcur.present, hcur.agrees, ?_⟩
    intro other hother hsome
    rcases mem_or_eq_of_mem_set hother with hother | rfl
    · exact hcur.unsettled other hother hsome
    obtain ⟨message, hmsg⟩ := isSome_iff_exists.mp hsome
    intro hid
    apply (hafter message hmsg).2.1
    rw [← hserial, ← hid]
    exact mem_ids_of_mem hm
  · intro id hid
    rcases mem_required.mp hid with hshown | ⟨⟨other, hother, message, hmsg, rfl⟩, hkept⟩
    · exact h.complete id (mem_required.mpr (.inl hshown))
    rcases mem_or_eq_of_mem_set hother with hother | rfl
    · exact h.complete _
        (mem_required.mpr (.inr ⟨⟨other, hother, message, hmsg, rfl⟩, hkept⟩))
    exact (hafter message hmsg).2.2 hkept
  · have hsame : (s.sends.set index after).map Send.serial = s.sends.map Send.serial := by
      obtain ⟨hlt, rfl⟩ := List.getElem?_eq_some_iff.mp hsend
      have hmap : index < (s.sends.map Send.serial).length := by
        rwa [length_map]
      rw [map_set, hserial, ← getElem_map Send.serial (h := hmap), set_getElem_self]
    rw [hsame]
    exact h.serials
  · intro other hother
    rcases mem_or_eq_of_mem_set hother with hother | rfl
    · exact h.issued other hother
    rw [hserial]
    exact h.issued send (mem_of_getElem? hsend)
  intro other hother message hmsg
  rcases mem_or_eq_of_mem_set hother with hother | rfl
  · exact h.client other hother message hmsg
  exact (hafter message hmsg).1

theorem Invariant.pending {index : Nat} {send : Send}
    (hsend : s.sends[index]? = some send) (hmsg : send.message = none) :
    ∀ other ∈ s.sends, other.message.isSome = true →
      MessageId.placeholder send.serial ≠ .placeholder other.serial := by
  intro other hother hsome hserial
  have hsame := inj_on_of_nodup_map h.serials (mem_of_getElem? hsend) hother
    (MessageId.placeholder.inj hserial)
  rw [← hsame, hmsg] at hsome
  cases hsome

end

theorem WellListed.replaceMessage {issued : Nat} (h : WellListed setting issued list)
    (tempId : MessageId) (hissued : ∀ serial, message.id = .placeholder serial → serial ≤ issued) :
    WellListed setting issued (list.replaceMessage setting.minSeq tempId message) := by
  refine ⟨nodup_replaceMessage h.unique, ?_, ?_⟩
  · intro m hm
    exact (mem_replaceMessage.mp hm).2
  intro serial hserial
  obtain ⟨m, hm, hid⟩ := mem_ids.mp hserial
  rcases (mem_replaceMessage.mp hm).1 with rfl | ⟨hold, _⟩
  · exact hissued serial hid
  exact h.issued serial (hid ▸ mem_ids_of_mem hold)

theorem weaker_replaceMessage (tempId : MessageId) :
    ((s.replaceMessage setting tempId message).recent.revoked ⊆ s.recent.revoked) ∧
      ((s.replaceMessage setting tempId message).recent.read ⊆ s.recent.read) ∧
        ∀ id ∈ (s.replaceMessage setting tempId message).recent.gone,
          id ≠ message.id ∧ (id = tempId ∨ id ∈ s.recent.gone) := by
  simp only [Room.replaceMessage, Changes.show_]
  split
  · refine ⟨List.Subset.refl _, List.Subset.refl _, ?_⟩
    intro id hid
    obtain ⟨hgone, hne⟩ := mem_filter.mp hid
    exact ⟨by simpa using hne, .inr hgone⟩
  refine ⟨filter_sublist.subset, filter_sublist.subset, ?_⟩
  intro id hid
  obtain ⟨hgone, hne⟩ := mem_filter.mp hid
  refine ⟨by simpa using hne, ?_⟩
  simp only [Changes.remove] at hgone
  split at hgone
  · exact (mem_append.mp hgone).imp_left mem_singleton.mp
  exact .inr hgone

theorem shown_replaceMessage {tempId : MessageId}
    (h : id ∈ (s.replaceMessage setting tempId message).recent.shown) :
    id = message.id ∨ id ∈ s.recent.shown ∧ id ≠ tempId := by
  by_cases hid : id = message.id
  · exact .inl hid
  refine .inr ?_
  simp only [Room.replaceMessage] at h
  have hmem := (mem_cons.mp (show_subset _ _ h)).resolve_left hid
  split at hmem
  case isTrue htemp => exact ⟨hmem, htemp ▸ hid⟩
  case isFalse =>
    obtain ⟨hmem, hne⟩ := mem_filter.mp hmem
    exact ⟨hmem, by simpa using hne⟩

theorem Invariant.replaceMessage (h : Invariant setting s) {tempId : MessageId}
    (htemp : tempId = message.id ∨ ∃ serial, tempId = .placeholder serial)
    (hput : s.PutUpToDate setting message)
    (hissued : ∀ serial, message.id = .placeholder serial → serial ≤ s.placeholderSeq)
    (hunsettled : ∀ send ∈ s.sends, send.message.isSome = true →
      message.id ≠ .placeholder send.serial) :
    Invariant setting (s.replaceMessage setting tempId message) := by
  obtain ⟨hrevoked, hread, hgone⟩ := @weaker_replaceMessage setting s message tempId
  refine h.relist (h.listed.replaceMessage tempId hissued) ?_ ?_ rfl rfl rfl
  · intro m hm
    rcases (mem_replaceMessage.mp hm).1 with rfl | ⟨hold, hid, hne⟩
    · exact ⟨fun hmem => (hgone _ hmem).1 rfl,
        ⟨fun entry hentry => hput.2.revoked entry (hrevoked hentry),
          fun id hid => hput.2.read id (hread hid)⟩, hunsettled⟩
    have hcur := h.current m hold
    exact ⟨fun hmem => hcur.present ((hgone _ hmem).2.resolve_left hne),
      ⟨fun entry hentry => hcur.agrees.revoked entry (hrevoked hentry),
        fun id hid => hcur.agrees.read id (hread hid)⟩, hcur.unsettled⟩
  have hthere : message.id ∈ (s.replaceMessage setting tempId message).list.ids :=
    mem_ids_of_mem (mem_replaceMessage.mpr ⟨.inl rfl, hput.1⟩)
  have hold : ∀ id ∈ s.required, id ≠ tempId →
      id ∈ (s.replaceMessage setting tempId message).list.ids := by
    intro id hid hne
    by_cases hmsg : id = message.id
    · rw [hmsg]
      exact hthere
    obtain ⟨m, hm, rfl⟩ := mem_ids.mp (h.complete id hid)
    exact mem_ids_of_mem (mem_replaceMessage.mpr
      ⟨.inr ⟨hm, hmsg, hne⟩, h.listed.visible m hm⟩)
  intro id hid
  rcases mem_required.mp hid with hshown | ⟨⟨send, hsend, settled, hsome, rfl⟩, hkept⟩
  · rcases shown_replaceMessage hshown with rfl | ⟨hmem, hne⟩
    · exact hthere
    exact hold id (mem_required.mpr (.inl hmem)) hne
  by_cases hmsg : settled.id = message.id
  · rw [hmsg]
    exact hthere
  refine hold _ (mem_required.mpr (.inr ⟨⟨send, hsend, settled, hsome, rfl⟩, ?_⟩)) ?_
  · intro hdeleted
    exact hkept (mem_filter.mpr ⟨hdeleted, by simpa using hmsg⟩)
  -- a message that was sent has no placeholder's id
  obtain ⟨clientId, hclient⟩ := h.client send hsend settled hsome
  rcases htemp with rfl | ⟨serial, rfl⟩
  · exact hmsg
  rw [hclient]
  exact MessageId.noConfusion

theorem id_deliveredMessage (send : Send) (item : MessageItem) :
    (deliveredMessage setting send item).id = .client item.clientMsgID := by
  simp only [deliveredMessage, withCover]
  split <;> split <;> first | rfl | (split <;> rfl)

section

variable (h : Invariant setting s)
include h

theorem Invariant.deliverOutgoingImage {index : Nat} {send : Send}
    (hsend : s.sends[index]? = some send) (hmsg : send.message = none) (preview : Text)
    (listed : Bool) : Invariant setting (s.deliverOutgoingImage setting index send preview listed) := by
  have hpend := h.pending hsend hmsg
  have hshown : Invariant setting (if preview ≠ send.content then
      s.replaceMessage setting (.placeholder send.serial)
        (({ send with content := preview } : Send).placeholder .sending) else s) := by
    split
    · refine h.replaceMessage (.inl rfl) ⟨rfl, agrees_placeholder _ rfl⟩ ?_ hpend
      rintro _ ⟨⟩
      exact h.issued send (mem_of_getElem? hsend)
    exact h
  rw [Room.deliverOutgoingImage]
  have hstill : ∀ shown : Room, shown.sends = s.sends → shown.sends[index]? = some send := by
    intro shown hsends
    rw [hsends]
    exact hsend
  refine hshown.setStage (hstill _ ?_) rfl ?_
  · split <;> rfl
  intro message hsome
  cases listed <;> cases hsome

theorem Invariant.sent {index : Nat} {send : Send}
    (hsend : s.sends[index]? = some send) (item : MessageItem)
    (hput : s.PutUpToDate setting (deliveredMessage setting send item)) :
    Invariant setting (s.sent setting index send item) := by
  have hid : (deliveredMessage setting send item).id = .client item.clientMsgID :=
    id_deliveredMessage send item
  have hrepld : Invariant setting (s.replaceMessage setting (.placeholder send.serial)
      (deliveredMessage setting send item)) := by
    refine h.replaceMessage (.inr ⟨_, rfl⟩) hput ?_ ?_
    · intro serial hserial
      cases hid.symm.trans hserial
    intro other _ _ hserial
    cases hid.symm.trans hserial
  refine hrepld.setStage hsend rfl ?_
  rintro message ⟨⟩
  refine ⟨⟨_, hid⟩, ?_, fun _ => ?_⟩
  · intro hmem
    obtain ⟨m, hm, hplaceholder⟩ := mem_ids.mp hmem
    rcases (mem_replaceMessage.mp hm).1 with rfl | ⟨_, _, hne⟩
    · cases hid.symm.trans hplaceholder
    exact hne hplaceholder
  exact mem_ids_of_mem (mem_replaceMessage.mpr ⟨.inl rfl, hput.1⟩)

theorem Invariant.sendFailed {index : Nat} {send : Send}
    (hsend : s.sends[index]? = some send) (unavailable : Bool) :
    Invariant setting (s.sendFailed setting index send unavailable) := by
  have hstopped : Invariant setting (s.setStage index send .failed) := by
    refine h.setStage hsend rfl ?_
    rintro _ ⟨⟩
  have hindex : (s.setStage index send .failed).sends[index]? =
      some { send with stage := .failed } := by
    rw [Room.setStage, getElem?_set_self (List.getElem?_eq_some_iff.mp hsend).1]
  have hpend := hstopped.pending hindex rfl
  have hrepld : Invariant setting ((s.setStage index send .failed).replaceMessage setting
      (.placeholder send.serial) (send.placeholder .failed)) := by
    refine hstopped.replaceMessage (.inl rfl) ⟨rfl, agrees_placeholder _ rfl⟩ ?_ hpend
    rintro _ ⟨⟩
    exact h.issued send (mem_of_getElem? hsend)
  rw [Room.sendFailed]
  split
  · exact hrepld.clearHistory
  exact hrepld

theorem Invariant.proceed {index : Nat} {send after : Send}
    (hsend : s.sends[index]? = some send) (hserial : after.serial = send.serial)
    (hmsg : send.message = some message) (hafter : after.message = some message) :
    Invariant setting { s with sends := s.sends.set index after } := by
  have hmem := mem_of_getElem? hsend
  refine h.setStage hsend hserial ?_
  intro other hother
  cases hother.symm.trans hafter
  refine ⟨h.client send hmem _ hmsg, ?_, ?_⟩
  · intro hthere
    obtain ⟨m, hm, hid⟩ := mem_ids.mp hthere
    exact (h.current m hm).unsettled send hmem (by rw [hmsg]; rfl) hid
  intro hkept
  exact h.complete _ (mem_required.mpr (.inr ⟨⟨send, hmem, _, hmsg, rfl⟩, hkept⟩))

theorem Invariant.reappeared {index : Nat} {send : Send}
    (hsend : s.sends[index]? = some send) (hmsg : send.message = some message) :
    Invariant setting (s.reappeared setting index send message) := by
  refine h.proceed hsend rfl hmsg ?_
  cases setting.isGroup && decide (message.seq = 0) <;> rfl

theorem Invariant.resolved {index : Nat} {send : Send}
    (hsend : s.sends[index]? = some send) (hmsg : send.message = some message) (seq : Nat)
    (hput : seq = 0 ∨ s.list.has message.id = false ∨ s.PutUpToDate setting { message with seq }) :
    Invariant setting (s.resolved setting index send message seq) := by
  have hmem := mem_of_getElem? hsend
  obtain ⟨clientId, hclient⟩ := h.client send hmem message hmsg
  rw [Room.resolved]
  split
  case isTrue => exact h.proceed hsend rfl hmsg rfl
  case isFalse hfound =>
    simp only [Bool.or_eq_true, decide_eq_true_eq, Bool.not_eq_true', not_or,
      Bool.not_eq_false] at hfound
    obtain ⟨hvis, hagrees⟩ : s.PutUpToDate setting { message with seq } := by
      rcases hput with hzero | habsent | hput
      · exact absurd hzero hfound.1
      · rw [hfound.2] at habsent
        cases habsent
      exact hput
    have hrepld : Invariant setting (s.replaceMessage setting message.id
        { message with seq, trackGroupRead := true }) := by
      refine h.replaceMessage (.inl rfl) ⟨hvis, hagrees.1, hagrees.2⟩ ?_ ?_
      · intro serial hserial
        cases hclient.symm.trans hserial
      intro other _ _ hserial
      cases hclient.symm.trans hserial
    refine hrepld.setStage hsend rfl ?_
    rintro numbered ⟨⟩
    refine ⟨⟨clientId, hclient⟩, ?_, fun _ => ?_⟩
    · intro hthere
      obtain ⟨m, hm, hid⟩ := mem_ids.mp hthere
      rcases (mem_replaceMessage.mp hm).1 with rfl | ⟨hold, _⟩
      · cases hclient.symm.trans hid
      exact (h.current m hold).unsettled send hmem (by rw [hmsg]; rfl) hid
    exact mem_ids_of_mem (mem_replaceMessage.mpr ⟨.inl rfl, hvis⟩)

end

theorem invariant_step {next : Room} {action : Action} (h : Invariant setting s)
    (hallow : s.Allowed setting action) (hstep : s.step setting action = some next) :
    Invariant setting next := by
  cases action with
  | receive item =>
    cases hstep
    exact h.receive item hallow
  | revoke clientMsgId tip =>
    cases hstep
    exact h.dropRevokedMessage clientMsgId tip
  | readReceipts msgIds =>
    cases hstep
    exact h.ingestReadReceipts msgIds
  | removeLocal id =>
    cases hstep
    exact h.removeLocal id
  | clearHistory =>
    cases hstep
    exact h.clearHistory
  | loadMessages =>
    cases hstep
    exact h.request h.listed
  | loadMoreMessages =>
    cases hstep
    exact h.loadMoreMessages
  | locateMessage target =>
    cases hstep
    exact h.locateMessage target
  | page index page isEnd now =>
    simp only [Room.step] at hstep
    split at hstep
    · cases hstep
    · cases hstep
    case h_3 request _ hreq =>
      cases hstep
      exact h.arrive hreq page isEnd now (hallow request hreq)
  | pageFailed index =>
    obtain ⟨request, _, rfl⟩ := map_eq_some_iff.mp hstep
    apply h.finish
    rintro _ ⟨⟩
  | markedRead index =>
    simp only [Room.step] at hstep
    split at hstep
    case h_1 target hreq =>
      cases hstep
      exact h.arrive hreq [] false 0 trivial
    · cases hstep
  | prepareOutgoingImage content createdAt =>
    cases hstep
    exact h.insertPlaceholder _ content createdAt (fun _ => rfl)
  | send type content createdAt =>
    cases hstep
    exact h.insertPlaceholder type content createdAt (fun _ => rfl)
  | deliverOutgoingImage index preview listed =>
    obtain ⟨send, hsend, hstage⟩ := bind_eq_some_iff.mp hstep
    split at hstage
    case h_1 hprepared =>
      cases hstage
      exact h.deliverOutgoingImage hsend (by rw [Send.message, hprepared]) preview listed
    · cases hstage
  | sent index item =>
    obtain ⟨send, hsend, hstage⟩ := bind_eq_some_iff.mp hstep
    split at hstage
    · cases hstage
      exact h.sent hsend item (hallow send hsend)
    cases hstage
  | sendFailed index unavailable =>
    obtain ⟨send, hsend, hstage⟩ := bind_eq_some_iff.mp hstep
    split at hstage
    · cases hstage
      exact h.sendFailed hsend unavailable
    · cases hstage
      exact h.sendFailed hsend unavailable
    cases hstage
  | reappeared index =>
    obtain ⟨send, hsend, hstage⟩ := bind_eq_some_iff.mp hstep
    split at hstage
    case h_1 message hdelivered =>
      cases hstage
      exact h.reappeared hsend (by rw [Send.message, hdelivered])
    · cases hstage
  | resolved index seq =>
    obtain ⟨send, hsend, hstage⟩ := bind_eq_some_iff.mp hstep
    split at hstage
    case h_1 message hresolving =>
      cases hstage
      have hmsg : send.message = some message := by
        rw [Send.message, hresolving]
      exact h.resolved hsend hmsg seq (hallow send hsend message hmsg)
    · cases hstage

theorem invariant_initial : Invariant setting .initial := by
  constructor <;> simp [Room.initial, required, Changes.none, Messages.ids]
  constructor <;> simp [Messages.ids]

end Room

def privateChat : Setting := ⟨false, 0, fun primary _ => primary⟩

def sampleItem (name : Char) (type : MessageType) : MessageItem :=
  ⟨[name], [], [], [], type, [], 0, false, 0, .sent, none, false, false⟩

/-- History is reloaded while messages come in, are revoked and are sent. The page
that arrives has them all. -/
def reloaded : List Action :=
  [.receive (sampleItem 'a' .text), .loadMessages, .receive (sampleItem 'b' .text),
    .revoke ['a'] [], .send .text ['x'] 0, .sent 0 (sampleItem 'c' .text),
    .page 0 [sampleItem 'a' .system, sampleItem 'b' .text, sampleItem 'c' .text] true 70000,
    .reappeared 0]

/-- Older messages are loaded while a message comes in and another one is sent.
The page puts the captured list back. -/
def overtaken : List Action :=
  [.receive (sampleItem 'a' .text), .send .text ['x'] 0, .loadMoreMessages,
    .receive (sampleItem 'b' .text), .sent 0 (sampleItem 'c' .text), .reappeared 0,
    .page 0 [sampleItem 'd' .text] false 70000]

end ImApp.ChatStore
