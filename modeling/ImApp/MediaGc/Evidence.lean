import Mathlib.Algebra.Order.Field.Rat
import ImApp.MediaGc.Resolve
import ImApp.MediaGc.Record

/-!
The reads behind a reclaim. For each claim the collector reads the persisted
minimum of the group's conversation, the highest retention receipt that was
applied long enough ago, and the message documents that hold the claimed message.
A positive answer rests on all of them, and every failed read makes it negative.
-/

namespace ImApp.MediaGc

open List
open JsonText (Text)

/-- A field of a stored document, which may be missing or of another type. -/
inductive Field (α : Type) where
  | missing
  | value (v : α)
  | malformed
  deriving DecidableEq

/-- The number types of the database. A filter compares their values. -/
inductive Number where
  | int32 (v : Int)
  | int64 (v : Int)
  | double (v : Rat)

def Number.value : Number → Rat
  | .int32 v | .int64 v => v
  | .double v => v

/-- The type assertions on a receipt's boundary. -/
def Number.integer? : Number → Option Int
  | .int32 v | .int64 v => some v
  | .double _ => none

structure SeqDocument where
  conversation : Text
  minSeq : Field Int

structure Receipt where
  conversation : Text
  boundary : Number
  appliedAt : Option Time

/-- A slot without a message is `none`. A document decodes as a whole or not at
all, which the filters do not depend on. -/
structure MessageDocument where
  docID : Text
  messages : List (Option StoredMessage)
  decodable : Bool

structure Storage where
  seqs : List SeqDocument
  receipts : List Receipt
  messages : List MessageDocument

/-- The requests for one claim that fail. The cursor may fail after any number of
documents. -/
structure ReadFaults where
  seq : Bool
  receipt : Bool
  find : Bool
  cursor : Option Nat

def conversationOf (claim : Claim) : Text := "sg_".toList ++ claim.group

variable (store : Storage) (claim : Claim) (now : Time)

/-- `FindOne` with `Decode`: a missing field decodes as zero. -/
def readMinSeq (fails : Bool) : Option Int :=
  if fails then none
  else (store.seqs.find? fun doc => doc.conversation = conversationOf claim).bind fun doc =>
    match doc.minSeq with
    | .missing => some 0
    | .value v => some v
    | .malformed => none

def Receipt.applies (minSeq : Int) (receipt : Receipt) : Bool :=
  receipt.conversation = conversationOf claim && receipt.boundary.value ≤ minSeq &&
    1 < receipt.boundary.value && receipt.appliedAt.any fun t => t + quarantine ≤ now

/-- The highest boundary that applies. -/
def readReceipt (fails : Bool) (minSeq : Int) : Option Receipt :=
  if fails then none
  else
    let applied := store.receipts.filter (Receipt.applies claim now minSeq)
    (KeepNewest.newestFirst (fun receipt => receipt.boundary.value) applied).head?

def MessageDocument.holds (doc : MessageDocument) : Bool :=
  (conversationOf claim ++ [':']).isPrefixOf doc.docID &&
    doc.messages.any fun slot => slot.any claim.names

def documentLimit : Nat := 3

/-- What the cursor delivers before it ends or fails. -/
def cursorDocuments (faults : ReadFaults) : List MessageDocument :=
  let found := (store.messages.filter (MessageDocument.holds claim)).take (documentLimit + 1)
  match faults.cursor with
  | none => found
  | some n => found.take n

structure Verdict where
  found : Bool
  safe : Bool

/-- One slot of a document. -/
def judgeSlot (boundary : Int) (verdict : Verdict) (slot : Option StoredMessage) : Verdict :=
  match slot with
  | none => verdict
  | some m =>
    if claim.names m then
      let verdict := { verdict with found := true }
      if m.group ≠ claim.group ∨ m.session ≠ 3 ∨ m.seq ≤ 0 ∨ boundary ≤ m.seq then
        { verdict with safe := false }
      else verdict
    else verdict

/-- The loop over the cursor, which stops at a fourth document and at one that
does not decode. -/
def judgeDocuments (boundary : Int) : Nat → Verdict → List MessageDocument → Verdict
  | _, verdict, [] => verdict
  | docs, verdict, doc :: rest => if documentLimit < docs + 1 then { verdict with safe := false }
    else if !doc.decodable then { verdict with safe := false }
    else judgeDocuments boundary (docs + 1)
      (doc.messages.foldl (judgeSlot claim boundary) verdict) rest

def judgeCopies (faults : ReadFaults) (boundary : Int) : Bool :=
  if faults.find then false
  else
    let verdict := judgeDocuments claim boundary 0 ⟨false, true⟩ (cursorDocuments store claim faults)
    let safe := if faults.cursor.isSome then false else verdict.safe
    safe && verdict.found

/-- The body of the loop over the claims. -/
def claimReclaimable (faults : ReadFaults) : Bool :=
  if !claim.complete then false
  else
    match readMinSeq store claim faults.seq with
    | none => false
    | some minSeq =>
      if minSeq ≤ 1 then false
      else
        match readReceipt store claim now faults.receipt minSeq with
        | none => false
        | some receipt =>
          match receipt.boundary.integer? with
          | none => false
          | some boundary => judgeCopies store claim faults boundary

/-- A missing hold reads as the zero time, which is before any other. -/
def Reclaimable (key : Text) (record : Record) (faults : Claim → ReadFaults) : Bool :=
  if !Managed key || record.state ≠ .opened || record.permanent ||
      !record.holdUntil.all (fun hold => hold < now) then false
  else record.claims.all fun claim => claimReclaimable store claim now (faults claim)

/-- A durable copy of the claimed message in the conversation of its group. -/
def Storage.Copy (doc : MessageDocument) (m : StoredMessage) : Prop :=
  doc ∈ store.messages ∧ (conversationOf claim ++ [':']) <+: doc.docID ∧
    some m ∈ doc.messages ∧ m.id = claim.message ∧ m.sender = claim.sender

/-- A visibility boundary of the claim's conversation: at most the persisted
minimum, and acknowledged at least the quarantine time ago. -/
def Storage.Retired (boundary : Int) : Prop :=
  ∃ seq ∈ store.seqs, ∃ receipt ∈ store.receipts, ∃ minSeq acknowledged,
    seq.conversation = conversationOf claim ∧ seq.minSeq = .value minSeq ∧
    receipt.conversation = conversationOf claim ∧ receipt.boundary.integer? = some boundary ∧
    boundary ≤ minSeq ∧ receipt.appliedAt = some acknowledged ∧ acknowledged + quarantine ≤ now

/-- The whole conversation was looked at: no read failed, no document was cut off
and each of those that hold a copy decodes. -/
structure Seen (faults : ReadFaults) : Prop where
  reads : faults.seq = false ∧ faults.receipt = false ∧ faults.find = false ∧ faults.cursor = none
  complete : cursorDocuments store claim faults =
    store.messages.filter (MessageDocument.holds claim)
  decodable : ∀ doc m, store.Copy claim doc m → doc.decodable = true

structure AccountedFor (faults : ReadFaults) : Prop where
  seen : Seen store claim faults
  stored : ∃ doc m, store.Copy claim doc m
  retired : ∃ boundary, store.Retired claim now boundary ∧ ∀ doc m, store.Copy claim doc m →
    m.group = claim.group ∧ m.session = 3 ∧ 0 < m.seq ∧ m.seq < boundary

section Copies

variable {store claim now}

variable {m : StoredMessage}

theorem expiredAt_iff {boundary : Int} : claim.expiredAt boundary m = true ↔
      m.group = claim.group ∧ m.session = 3 ∧ 0 < m.seq ∧ m.seq < boundary := by
  simp [Claim.expiredAt, and_assoc]

variable {verdict : Verdict}

theorem judgeSlot_safe {boundary : Int} {slot : Option StoredMessage} :
    (judgeSlot claim boundary verdict slot).safe = true ↔ verdict.safe = true ∧
      ∀ m, slot = some m → claim.names m = true → claim.expiredAt boundary m = true := by
  cases slot with
  | none => simp [judgeSlot]
  | some m =>
    by_cases hnames : claim.names m = true
    · by_cases hexp : claim.expiredAt boundary m = true
      · obtain ⟨hgroup, hsess, hpos, hlt⟩ := expiredAt_iff.mp hexp
        have hfine : ¬ (m.group ≠ claim.group ∨ m.session ≠ 3 ∨ m.seq ≤ 0 ∨ boundary ≤ m.seq) := by
          simp [hgroup, hsess, hpos, hlt]
        simp [judgeSlot, hnames, hexp, hfine]
      have hbad : m.group ≠ claim.group ∨ m.session ≠ 3 ∨ m.seq ≤ 0 ∨ boundary ≤ m.seq := by
        rw [expiredAt_iff] at hexp
        by_contra hfine
        push Not at hfine
        exact hexp hfine
      simp [judgeSlot, hnames, hexp, hbad]
    simp [judgeSlot, hnames]

theorem judgeSlot_found {boundary : Int} {slot : Option StoredMessage} :
    (judgeSlot claim boundary verdict slot).found = true ↔ verdict.found = true ∨
      ∃ m, slot = some m ∧ claim.names m = true := by
  cases slot with
  | none => simp [judgeSlot]
  | some m =>
    by_cases hnames : claim.names m = true
    · have hfound : (judgeSlot claim boundary verdict (some m)).found = true := by
        simp only [judgeSlot, hnames, if_true]
        split <;> rfl
      simp [hfound, hnames]
    simp [judgeSlot, hnames]

theorem judgeSlots_safe {boundary : Int} {slots : List (Option StoredMessage)} :
    (slots.foldl (judgeSlot claim boundary) verdict).safe = true ↔ verdict.safe = true ∧
      ∀ m, some m ∈ slots → claim.names m = true → claim.expiredAt boundary m = true := by
  induction slots generalizing verdict with
  | nil => simp
  | cons slot rest ih =>
    rw [foldl_cons, ih, judgeSlot_safe, and_assoc]
    apply and_congr_right
    intro _
    constructor
    · rintro ⟨hslot, hrest⟩ m hm
      rcases mem_cons.mp hm with hhead | htail
      · exact hslot m hhead.symm
      exact hrest m htail
    intro h
    exact ⟨fun m hm => h m (hm ▸ mem_cons_self), fun m hm => h m (mem_cons_of_mem _ hm)⟩

theorem judgeSlots_found {boundary : Int} {slots : List (Option StoredMessage)} :
    (slots.foldl (judgeSlot claim boundary) verdict).found = true ↔ verdict.found = true ∨
      ∃ m, some m ∈ slots ∧ claim.names m = true := by
  induction slots generalizing verdict with
  | nil => simp
  | cons slot rest ih =>
    rw [foldl_cons, ih, judgeSlot_found, or_assoc]
    apply or_congr_right
    constructor
    · rintro (⟨m, rfl, hm⟩ | ⟨m, hmem, hm⟩)
      · exact ⟨m, mem_cons_self, hm⟩
      exact ⟨m, mem_cons_of_mem _ hmem, hm⟩
    rintro ⟨m, hmem, hm⟩
    rcases mem_cons.mp hmem with hhead | htail
    · exact .inl ⟨m, hhead.symm, hm⟩
    exact .inr ⟨m, htail, hm⟩

/-- A safe end of the loop: it went through all documents, and every copy in them
is below the boundary. -/
theorem judgeDocuments_safe {boundary : Int} {n : Nat} {docs : List MessageDocument} (hsafe : (judgeDocuments claim boundary n verdict docs).safe = true) :
    verdict.safe = true ∧ (docs = [] ∨ n + docs.length ≤ documentLimit) ∧
      ∀ doc ∈ docs, doc.decodable = true ∧
        ∀ m, some m ∈ doc.messages → claim.names m = true → claim.expiredAt boundary m = true := by
  induction docs generalizing n verdict with
  | nil => exact ⟨hsafe, .inl rfl, by simp⟩
  | cons doc rest ih =>
    unfold judgeDocuments at hsafe
    split at hsafe
    · cases hsafe
    case isFalse hcount =>
      split at hsafe
      · cases hsafe
      case isFalse hdecodes =>
        obtain ⟨hslots, hlen, hrest⟩ := ih hsafe
        obtain ⟨hverdict, hcopies⟩ := judgeSlots_safe.mp hslots
        refine ⟨hverdict, .inr ?_, ?_⟩
        · rw [length_cons]
          rcases hlen with rfl | hlen
          · rw [length_nil]
            omega
          omega
        intro other hother
        rcases mem_cons.mp hother with rfl | htail
        · exact ⟨by simpa using hdecodes, hcopies⟩
        exact hrest other htail

theorem judgeDocuments_found {boundary : Int} {n : Nat} {docs : List MessageDocument} (hfound : (judgeDocuments claim boundary n verdict docs).found = true) :
    verdict.found = true ∨ ∃ doc ∈ docs, ∃ m, some m ∈ doc.messages ∧ claim.names m = true := by
  induction docs generalizing n verdict with
  | nil => exact .inl hfound
  | cons doc rest ih =>
    unfold judgeDocuments at hfound
    split at hfound
    · exact .inl hfound
    split at hfound
    · exact .inl hfound
    rcases ih hfound with hslots | ⟨other, hother, hcopy⟩
    · rcases judgeSlots_found.mp hslots with hverdict | hcopy
      · exact .inl hverdict
      exact .inr ⟨doc, mem_cons_self, hcopy⟩
    exact .inr ⟨other, mem_cons_of_mem _ hother, hcopy⟩

theorem holds_iff {doc : MessageDocument} :
    doc.holds claim = true ↔ (conversationOf claim ++ [':']) <+: doc.docID ∧
      ∃ m, some m ∈ doc.messages ∧ claim.names m = true := by
  simp only [MessageDocument.holds, Bool.and_eq_true, isPrefixOf_iff_prefix, any_eq_true]
  apply and_congr_right
  intro _
  constructor
  · rintro ⟨slot, hslot, hnames⟩
    cases slot with
    | none => cases hnames
    | some m => exact ⟨m, hslot, hnames⟩
  rintro ⟨m, hslot, hm⟩
  exact ⟨some m, hslot, by simpa using hm⟩

theorem names_iff : claim.names m = true ↔ m.id = claim.message ∧ m.sender = claim.sender := by
  simp [Claim.names]

theorem copy_iff {doc : MessageDocument} :
    store.Copy claim doc m ↔ doc ∈ store.messages.filter (MessageDocument.holds claim) ∧
      some m ∈ doc.messages ∧ claim.names m = true := by
  rw [mem_filter, holds_iff, names_iff]
  constructor
  · rintro ⟨hdoc, hid, hslot, hm⟩
    exact ⟨⟨hdoc, hid, m, hslot, names_iff.mpr hm⟩, hslot, hm⟩
  rintro ⟨⟨hdoc, hid, _⟩, hslot, hm⟩
  exact ⟨hdoc, hid, hslot, hm⟩

theorem judgeCopies_sound {faults : ReadFaults} {boundary : Int}
    (h : judgeCopies store claim faults boundary = true) :
    faults.find = false ∧ faults.cursor = none ∧ cursorDocuments store claim faults =
        store.messages.filter (MessageDocument.holds claim) ∧
      (store.messages.filter (MessageDocument.holds claim)).length ≤ documentLimit ∧
      (∃ doc m, store.Copy claim doc m) ∧ ∀ doc m, store.Copy claim doc m →
        doc.decodable = true ∧ claim.expiredAt boundary m = true := by
  unfold judgeCopies at h
  split at h
  · cases h
  case isFalse hfind =>
    cases hcursor : faults.cursor with
    | some n => simp [hcursor] at h
    | none =>
      simp only [hcursor, Option.isSome_none, Bool.false_eq_true, if_false, Bool.and_eq_true] at h
      obtain ⟨hsafe, hfound⟩ := h
      obtain ⟨-, hlen, hjudged⟩ := judgeDocuments_safe hsafe
      -- at most three of at most four documents were delivered, so none is missing
      have hdelivered : cursorDocuments store claim faults =
          (store.messages.filter (MessageDocument.holds claim)).take (documentLimit + 1) := by
        simp only [cursorDocuments, hcursor]
      have hshort : (store.messages.filter (MessageDocument.holds claim)).length ≤
          documentLimit := by
        rw [hdelivered] at hlen
        rcases hlen with hnil | hlen
        · have hzero := congrArg List.length hnil
          rw [length_take, length_nil] at hzero
          omega
        rw [length_take] at hlen
        omega
      have hcompl : cursorDocuments store claim faults =
          store.messages.filter (MessageDocument.holds claim) := by
        rw [hdelivered]
        exact take_of_length_le (hshort.trans (Nat.le_succ _))
      rw [hcompl] at hjudged hfound
      refine ⟨by simpa using hfind, rfl, hcompl, hshort, ?_, ?_⟩
      · rcases judgeDocuments_found hfound with hbase | ⟨doc, hdoc, m, hslot, hm⟩
        · cases hbase
        exact ⟨doc, m, copy_iff.mpr ⟨hdoc, hslot, hm⟩⟩
      intro doc m hcopy
      obtain ⟨hdoc, hslot, hm⟩ := copy_iff.mp hcopy
      obtain ⟨hdecodes, hcopies⟩ := hjudged doc hdoc
      exact ⟨hdecodes, hcopies m hslot hm⟩

end Copies

section Soundness

variable {store claim now} {faults : ReadFaults} {minSeq boundary : Int} {receipt : Receipt}

theorem readReceipt_some (h : readReceipt store claim now faults.receipt minSeq = some receipt) :
    faults.receipt = false ∧ receipt ∈ store.receipts ∧
      receipt.applies claim now minSeq = true := by
  unfold readReceipt at h
  split at h
  · cases h
  case isFalse hreads =>
    have hmem := KeepNewest.mem_newestFirst.mp (mem_of_head? h)
    obtain ⟨hreceipt, happlies⟩ := mem_filter.mp hmem
    exact ⟨by simpa using hreads, hreceipt, happlies⟩

theorem readMinSeq_some (h : readMinSeq store claim faults.seq = some minSeq) (hmin : 1 < minSeq) :
    faults.seq = false ∧ ∃ doc ∈ store.seqs, doc.conversation = conversationOf claim ∧
      doc.minSeq = .value minSeq := by
  unfold readMinSeq at h
  split at h
  · cases h
  case isFalse hreads =>
    obtain ⟨doc, hdoc, hvalue⟩ := Option.bind_eq_some_iff.mp h
    have hconv := find?_some hdoc
    refine ⟨by simpa using hreads, doc, mem_of_find?_eq_some hdoc, by simpa using hconv, ?_⟩
    cases hfield : doc.minSeq with
    | missing =>
      rw [hfield] at hvalue
      cases hvalue
      omega
    | value v =>
      rw [hfield] at hvalue
      rw [Option.some.inj hvalue]
    | malformed =>
      rw [hfield] at hvalue
      cases hvalue

theorem integer_value {number : Number} (h : number.integer? = some boundary) :
    number.value = boundary := by
  cases number with
  | int32 v | int64 v =>
    rw [← Option.some.inj h]
    rfl
  | double v => cases h

theorem claimReclaimable_reads (h : claimReclaimable store claim now faults = true) :
    claim.complete = true ∧ ∃ minSeq receipt boundary,
      readMinSeq store claim faults.seq = some minSeq ∧ 1 < minSeq ∧
      readReceipt store claim now faults.receipt minSeq = some receipt ∧
      receipt.boundary.integer? = some boundary ∧
      judgeCopies store claim faults boundary = true := by
  unfold claimReclaimable at h
  split at h
  · cases h
  case isFalse hcompl =>
    split at h
    · cases h
    case h_2 minSeq hminSeq =>
      split at h
      · cases h
      case isFalse hmin =>
        split at h
        · cases h
        case h_2 receipt hreceipt =>
          split at h
          · cases h
          case h_2 boundary hbound =>
            exact ⟨by simpa using hcompl, minSeq, receipt, boundary, hminSeq,
              not_le.mp hmin, hreceipt, hbound, h⟩

theorem claimReclaimable_accounted (h : claimReclaimable store claim now faults = true) :
    AccountedFor store claim now faults := by
  obtain ⟨-, minSeq, receipt, boundary, hminSeq, hmin, hreceipt, hbound, hcopies⟩ :=
    claimReclaimable_reads h
  obtain ⟨hseq, doc, hdoc, hconv, hvalue⟩ := readMinSeq_some hminSeq hmin
  obtain ⟨hread, hstored, happlies⟩ := readReceipt_some hreceipt
  obtain ⟨hfind, hcursor, hcompl, -, hcopy, hexp⟩ := judgeCopies_sound hcopies
  simp only [Receipt.applies, Bool.and_eq_true, decide_eq_true_eq, integer_value hbound,
    Option.any_eq_true] at happlies
  obtain ⟨⟨⟨hgroup, hle⟩, -⟩, acknowledged, happlied, hquiet⟩ := happlies
  refine ⟨⟨⟨hseq, hread, hfind, hcursor⟩, hcompl, ?_⟩, hcopy, boundary, ?_, ?_⟩
  · exact fun doc m hm => (hexp doc m hm).1
  · exact ⟨doc, hdoc, receipt, hstored, minSeq, acknowledged, hconv, hvalue, hgroup,
      hbound, by exact_mod_cast hle, happlied, hquiet⟩
  exact fun doc m hm => expiredAt_iff.mp (hexp doc m hm).2

variable {key : Text} {record : Record} {reads : Claim → ReadFaults}

theorem reclaimable_claims (h : Reclaimable store now key record reads = true) :
    ∀ claim ∈ record.claims, claimReclaimable store claim now (reads claim) = true := by
  unfold Reclaimable at h
  split at h
  · cases h
  simpa using h

/-- A copy at or above every boundary that retires rows of its conversation. -/
def NotRetired (store : Storage) (claim : Claim) (now : Time) : Prop :=
  ∃ doc m, store.Copy claim doc m ∧ ∀ boundary, store.Retired claim now boundary → boundary ≤ m.seq

def Unreadable (store : Storage) (claim : Claim) (faults : ReadFaults) : Prop :=
  faults.seq = true ∨ faults.receipt = true ∨ faults.find = true ∨ faults.cursor ≠ none ∨
    ∃ doc m, store.Copy claim doc m ∧ doc.decodable = false

def Missing (store : Storage) (claim : Claim) : Prop := ∀ doc m, ¬ store.Copy claim doc m

theorem not_reclaimable_of {claim : Claim} (hclaim : claim ∈ record.claims)
    (hopen : Missing store claim ∨ Unreadable store claim (reads claim) ∨
      NotRetired store claim now) : Reclaimable store now key record reads = false := by
  by_contra hreclaimable
  rw [Bool.not_eq_false] at hreclaimable
  have haccounted := claimReclaimable_accounted (reclaimable_claims hreclaimable claim hclaim)
  rcases hopen with hmissing | hunreadable | ⟨doc, m, hcopy, habove⟩
  · obtain ⟨doc, m, hcopy⟩ := haccounted.stored
    exact hmissing doc m hcopy
  · obtain ⟨hseq, hreceipt, hfind, hcursor⟩ := haccounted.seen.reads
    rcases hunreadable with h | h | h | h | ⟨doc, m, hcopy, h⟩
    · exact absurd (hseq.symm.trans h) (by decide)
    · exact absurd (hreceipt.symm.trans h) (by decide)
    · exact absurd (hfind.symm.trans h) (by decide)
    · exact h hcursor
    exact absurd ((haccounted.seen.decodable doc m hcopy).symm.trans h) (by decide)
  obtain ⟨boundary, hretired, hbelow⟩ := haccounted.retired
  have hle := habove boundary hretired
  have hlt := (hbelow doc m hcopy).2.2.2
  omega

theorem reclaimable_sound (store : Storage) (now : Time) (key : Text) (record : Record)
    (reads : Claim → ReadFaults) : (Reclaimable store now key record reads = true →
      ∀ claim ∈ record.claims, AccountedFor store claim now (reads claim)) ∧
    ∀ claim ∈ record.claims,
      (Missing store claim ∨ Unreadable store claim (reads claim) ∨ NotRetired store claim now) →
        Reclaimable store now key record reads = false := by
  constructor
  · intro h claim hclaim
    exact claimReclaimable_accounted (reclaimable_claims h claim hclaim)
  intro claim hclaim hopen
  exact not_reclaimable_of hclaim hopen

end Soundness

def expiredClaim : Claim := ⟨List.replicate 32 'a', "u".toList, "m".toList⟩

def expiredRecord : Record where
  state := .opened
  version := 1
  permanent := false
  claims := [expiredClaim]
  holdUntil := some 0
  candidateAt := none
  attemptAt := none
  size := 1
  deleteStarted := false
  deletedBytes := 0

/-- The message is the fourth of a group whose first nine are retired. -/
def expiredStorage : Storage where
  seqs := [⟨conversationOf expiredClaim, .value 10⟩]
  receipts := [⟨conversationOf expiredClaim, .int64 10, some 1⟩]
  messages := [⟨conversationOf expiredClaim ++ ":0".toList,
    [none, some ⟨"m".toList, "u".toList, List.replicate 32 'a', 3, 4⟩], true⟩]

def allReads : ReadFaults := ⟨false, false, false, none⟩

theorem reclaimable_sound_expired :
    AccountedFor expiredStorage expiredClaim (quarantine + 1) allReads ∧
      Reclaimable { expiredStorage with messages := [] } (quarantine + 1)
        "managed-v1/openim/direct/a".toList expiredRecord (fun _ => allReads) = false := by
  have hstored := reclaimable_sound expiredStorage (quarantine + 1)
    "managed-v1/openim/direct/a".toList expiredRecord (fun _ => allReads)
  have hpurged := reclaimable_sound { expiredStorage with messages := [] } (quarantine + 1)
    "managed-v1/openim/direct/a".toList expiredRecord (fun _ => allReads)
  constructor
  · exact hstored.1 (by decide +kernel) expiredClaim (by simp [expiredRecord])
  apply hpurged.2 expiredClaim (by simp [expiredRecord])
  left
  rintro doc m ⟨hdoc, -⟩
  cases hdoc

/-- The reads in the form that the collector's runs take them. -/
def evidenceOf (store : Storage) (faults : ReadFaults) (claim : Claim) : ClaimEvidence where
  minSeq := readMinSeq store claim faults.seq
  receipts := store.receipts.filterMap fun receipt =>
    if receipt.conversation = conversationOf claim then
      receipt.boundary.integer?.bind fun boundary => receipt.appliedAt.map fun t => (boundary, t)
    else none
  documents := (cursorDocuments store claim faults).map MessageDocument.messages
  readable := faults.cursor.isNone && (cursorDocuments store claim faults).all fun doc => doc.decodable

theorem evidence_boundary {store : Storage} {claim : Claim} {now : Time} {faults : ReadFaults}
    {minSeq boundary : Int} {receipt : Receipt}
    (hread : readReceipt store claim now faults.receipt minSeq = some receipt)
    (hbound : receipt.boundary.integer? = some boundary) :
    (evidenceOf store faults claim).boundary minSeq now = some boundary := by
  have hhighest : ∀ other ∈ store.receipts, other.applies claim now minSeq = true →
      other.boundary.value ≤ receipt.boundary.value := by
    intro other hother happlies
    unfold readReceipt at hread
    split at hread
    · cases hread
    have hle : ∀ {r r' : Receipt}, (KeepNewest.newestFirst (fun r : Receipt => r.boundary.value)
        (store.receipts.filter (Receipt.applies claim now minSeq))).head? = some r →
        r' ∈ store.receipts.filter (Receipt.applies claim now minSeq) →
        r'.boundary.value ≤ r.boundary.value := KeepNewest.le_of_head
    exact hle hread (mem_filter.mpr ⟨hother, happlies⟩)
  obtain ⟨-, hstored, happlies⟩ := readReceipt_some hread
  have hevidence : ∀ b t, (b, t) ∈ (evidenceOf store faults claim).receipts ↔
      ∃ r ∈ store.receipts, r.conversation = conversationOf claim ∧
        r.boundary.integer? = some b ∧ r.appliedAt = some t := by
    intro b t
    simp only [evidenceOf, mem_filterMap, Option.ite_none_right_eq_some,
      Option.bind_eq_some_iff, Option.map_eq_some_iff, Prod.mk.injEq]
    constructor
    · rintro ⟨r, hr, hconv, b', hb, t', ht, rfl, rfl⟩
      exact ⟨r, hr, hconv, hb, ht⟩
    rintro ⟨r, hr, hconv, hb, ht⟩
    exact ⟨r, hr, hconv, b, hb, t, ht, rfl, rfl⟩
  have happlies_iff : ∀ {r : Receipt} {b : Int}, r.boundary.integer? = some b →
      (r.applies claim now minSeq = true ↔ r.conversation = conversationOf claim ∧ b ≤ minSeq ∧
        1 < b ∧ ∃ t, r.appliedAt = some t ∧ t + quarantine ≤ now) := by
    intro r b hb
    have hone : (1 : Rat) < (b : Rat) ↔ 1 < b := by exact_mod_cast Iff.rfl
    have hle : (b : Rat) ≤ (minSeq : Rat) ↔ b ≤ minSeq := by exact_mod_cast Iff.rfl
    simp [Receipt.applies, integer_value hb, Option.any_eq_true, and_assoc, hone, hle]
  unfold ClaimEvidence.boundary
  rw [max?_eq_some_iff]
  constructor
  · obtain ⟨hconv, hle, hone, t, ht, hquiet⟩ := (happlies_iff hbound).mp happlies
    apply mem_map.mpr
    refine ⟨(boundary, t), mem_filter.mpr ⟨?_, by simp [hle, hone, hquiet]⟩, rfl⟩
    exact (hevidence boundary t).mpr ⟨receipt, hstored, hconv, hbound, ht⟩
  intro b hb
  obtain ⟨⟨b', t⟩, hmem, rfl⟩ := mem_map.mp hb
  obtain ⟨hpair, hfilter⟩ := mem_filter.mp hmem
  obtain ⟨r, hr, hconv, hinteger, ht⟩ := (hevidence b' t).mp hpair
  simp only [Bool.and_eq_true, decide_eq_true_eq] at hfilter
  obtain ⟨⟨hle, hone⟩, hquiet⟩ := hfilter
  have hother := hhighest r hr ((happlies_iff hinteger).mpr ⟨hconv, hle, hone, t, ht, hquiet⟩)
  rw [integer_value hinteger, integer_value hbound] at hother
  exact_mod_cast hother

theorem expired_of_claimReclaimable {store : Storage} {claim : Claim} {now : Time}
    {faults : ReadFaults} (h : claimReclaimable store claim now faults = true) :
    claim.complete = true ∧ claim.expired (evidenceOf store faults claim) now = true := by
  obtain ⟨hcompl, minSeq, receipt, boundary, hminSeq, hmin, hreceipt, hbound, hcopies⟩ :=
    claimReclaimable_reads h
  refine ⟨hcompl, ?_⟩
  obtain ⟨-, hcursor, hdocuments, hshort, ⟨doc, m, hcopy⟩, hexp⟩ := judgeCopies_sound hcopies
  have hnamed : ∀ m, m ∈ ((evidenceOf store faults claim).documents.flatten.filterMap id).filter
      claim.names ↔ ∃ doc, store.Copy claim doc m := by
    intro m
    simp only [evidenceOf, hdocuments, copy_iff, mem_filter, mem_filterMap,
      mem_flatten, mem_map, id_eq]
    constructor
    · rintro ⟨⟨slot, ⟨_, ⟨doc, hdoc, rfl⟩, hslot⟩, rfl⟩, hm⟩
      exact ⟨doc, hdoc, hslot, hm⟩
    rintro ⟨doc, hdoc, hslot, hm⟩
    exact ⟨⟨some m, ⟨doc.messages, ⟨doc, hdoc, rfl⟩, hslot⟩, rfl⟩, hm⟩
  have hreadable : (evidenceOf store faults claim).readable = true := by
    simp only [evidenceOf, hcursor, hdocuments, Option.isNone_none, Bool.true_and, all_eq_true]
    intro other hother
    obtain ⟨_, m', hslot, hm⟩ := holds_iff.mp (mem_filter.mp hother).2
    exact (hexp other m' (copy_iff.mpr ⟨hother, hslot, hm⟩)).1
  have hcount : (evidenceOf store faults claim).documents.length ≤ 3 := by
    simpa [evidenceOf, hdocuments, documentLimit] using hshort
  have hnonempty := ne_nil_of_mem ((hnamed m).mpr ⟨doc, hcopy⟩)
  have hminimum : (evidenceOf store faults claim).minSeq = some minSeq := hminSeq
  simp only [Claim.expired, hminimum, evidence_boundary hreceipt hbound, hreadable, hcount,
    hmin, decide_true, Bool.true_and, Bool.and_eq_true, Bool.not_eq_true',
    isEmpty_eq_false_iff, all_eq_true]
  refine ⟨hnonempty, ?_⟩
  intro m' hm'
  obtain ⟨doc', hcopy'⟩ := (hnamed m').mp hm'
  exact (hexp doc' m' hcopy').2

/-- What the reads allow, the runs of the collector may take as their evidence. -/
theorem reclaimable_of_reads {store : Storage} {now : Time} {key : Text} {record : Record}
    {reads : Claim → ReadFaults} (h : Reclaimable store now key record reads = true) :
    reclaimable record (fun claim => evidenceOf store (reads claim) claim) now = true := by
  have hclaims := reclaimable_claims h
  unfold Reclaimable at h
  split at h
  · cases h
  case isFalse hrec =>
    simp only [Bool.or_eq_true, not_or, Bool.not_eq_true', Bool.not_eq_false,
      decide_eq_true_eq, not_not, Bool.not_eq_true] at hrec
    obtain ⟨⟨⟨-, hopened⟩, hperm⟩, hhold⟩ := hrec
    simp only [reclaimable, hopened, hperm, hhold, decide_true, Bool.not_false,
      Bool.true_and, all_eq_true, Bool.and_eq_true]
    intro claim hclaim
    exact expired_of_claimReclaimable (hclaims claim hclaim)

theorem reclaimable_of_reads_expired :
    reclaimable expiredRecord (evidenceOf expiredStorage allReads) (quarantine + 1) = true :=
  @reclaimable_of_reads _ _ "managed-v1/openim/direct/a".toList _ (fun _ => allReads)
    (by decide +kernel)

end ImApp.MediaGc
