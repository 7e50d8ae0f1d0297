import ImApp.BodyPurge.Documents
import Mathlib.Data.List.Sort

/-!
The purge of message bodies, the guarded writes and deletes of documents and the apply of a
boundary, statement by statement on one conversation of a group in the purge's scope.
-/

namespace ImApp.BodyPurge

open InterleavedCalls

/-- Seconds. -/
def imAppBodyPurgeGrace : ℕ := 24 * 3600

def imAppBodyPurgeDocuments : ℕ := 10

def imAppBodyPurgeReceipts : ℕ := 5

/-- The first value that is no sequence. -/
def seqLimit : ℕ := 9007199254740992

/-- A request by the statement it is about to run; `rest` are the receipts of a batch that
are still to come. -/
inductive Call where
  | bodyPurgeBatch
  | finding (now : ℕ)
  | attempting (receipt : Receipt) (rest : List Receipt)
  | purgeBodyReceipt (receipt : Receipt) (rest : List Receipt)
  | inserting (receipt : Receipt) (next n : ℕ) (rest : List Receipt)
  | scrubbing (receipt : Receipt) (next n : ℕ) (rest : List Receipt)
  | progressing (receipt : Receipt) (next n : ℕ) (rest : List Receipt)
  | finishing (receipt : Receipt) (rest : List Receipt)
  | guardedWrite (n index : ℕ) (update : SlotUpdate)
  | create (n : ℕ) (contents : List (ℕ × String))
  | deleteDoc (n : ℕ)
  | deleteUnfenced (n : ℕ)
  | apply (id boundary : ℕ)
  | applying (id boundary expires_at : ℕ)
  | setMinSeq (id boundary : ℕ)
  | markBodyPurgeReceipt (id : ℕ)

/-- How a statement ends: it is answered, it fails with or without effect, or the process
crashes after or before its effect. -/
inductive Answer where
  | answered
  | unanswered
  | failed
  | crashed
  | lost

abbrev Outcome := Write × Option Call

def reply (answer : Answer) (write : Write) (next onError : Option Call) : Outcome :=
  match answer with
  | .answered => (write, next)
  | .unanswered => (write, onError)
  | .failed => (.nothing, onError)
  | .crashed => (write, none)
  | .lost => (.nothing, none)

/-- An error of one receipt does not end the batch. -/
def nextReceipt : List Receipt → Option Call
  | [] => none
  | receipt :: rest => some (.attempting receipt rest)

/-- The head of the loop over documents. -/
def purgeLoop (receipt : Receipt) (next n : ℕ) (rest : List Receipt) : Option Call :=
  if n < imAppBodyPurgeDocuments ∧ next < receipt.boundary then some (.inserting receipt next n rest)
  else if receipt.boundary ≤ next then some (.finishing receipt rest)
  else nextReceipt rest

/-- `min(first+99, receipt.Boundary-1)` -/
def through (receipt : Receipt) (next : ℕ) : ℕ := min ((next - 1) / 100 * 100 + 1 + 99) (receipt.boundary - 1)

/-- `through-first+1` -/
def slotsOf (receipt : Receipt) (next : ℕ) : ℕ := through receipt next - ((next - 1) / 100 * 100 + 1) + 1

/-- The receipts of one batch: first those that were never attempted, then by their last attempt. -/
def Conversation.batch (d : Conversation) (now : ℕ) : List Receipt :=
  let key : Receipt → ℕ × ℕ := fun receipt => (receipt.body_attempted_at.elim 0 (· + 1), receipt.id)
  let eligible := d.receipts.filter fun receipt =>
    1 < receipt.boundary && !receipt.body_done &&
      receipt.applied_at.any fun applied => applied + imAppBodyPurgeGrace ≤ now
  (eligible.insertionSort fun a b =>
    (key a).1 < (key b).1 ∨ (key a).1 = (key b).1 ∧ (key a).2 ≤ (key b).2).take imAppBodyPurgeReceipts

section Handlers

variable (d : Conversation) (answer : Answer)

def purgeBodyReceipt (receipt : Receipt) (rest : List Receipt) : Outcome :=
  if receipt.boundary ≤ 1 ∨ seqLimit ≤ receipt.boundary ∨ d.min_seq < receipt.boundary then
    reply answer .nothing (nextReceipt rest) (nextReceipt rest)
  else
    reply answer .nothing (purgeLoop receipt (max d.im_app_body_purged_before 1) 0 rest) (nextReceipt rest)

/-- The skeleton of a missing document comes first, without a fence. -/
def imAppRetentionPurgeDoc (receipt : Receipt) (next n : ℕ) (rest : List Receipt) : Outcome :=
  match d.docs (docOf next) with
  | none => reply answer .nothing (nextReceipt rest) (nextReceipt rest)
  | some doc =>
    if doc.scrubs d.group (docOf next) (slotsOf receipt next) then
      reply answer (.scrub (docOf next) (slotsOf receipt next))
        (some (.progressing receipt (through receipt next + 1) n rest)) (nextReceipt rest)
    else reply answer .nothing (nextReceipt rest) (nextReceipt rest)

def purgeProgress (receipt : Receipt) (next n : ℕ) (rest : List Receipt) : Outcome :=
  if receipt.boundary ≤ d.min_seq then
    reply answer (.progress next) (purgeLoop receipt next (n + 1) rest) (nextReceipt rest)
  else reply answer .nothing (nextReceipt rest) (nextReceipt rest)

/-- What its caller is told is read afterwards, and changes nothing. -/
def imAppRetentionGuardedWrite (n index : ℕ) (update : SlotUpdate) : Outcome :=
  match d.docs n with
  | none => (.nothing, none)
  | some doc =>
    if 100 ≤ index then (.nothing, none)
    else if doc.admits index then reply answer (.store n index update) none none
    else reply answer (.reject n index) none none

/-- The `doc_id` is unique. -/
def createDoc (n : ℕ) (contents : List (ℕ × String)) : Outcome :=
  match d.docs n with
  | none => reply answer (.create n contents) none none
  | some _ => (.nothing, none)

def imAppRetentionDeleteDoc (n : ℕ) : Outcome :=
  match d.docs n with
  | none => reply answer .nothing (some (.deleteUnfenced n)) none
  | some doc =>
    if doc.im_app_purged_slots.isSome then reply answer (.clear n) (some (.deleteUnfenced n)) none
    else reply answer .nothing (some (.deleteUnfenced n)) none

def deleteUnfenced (n : ℕ) : Outcome :=
  match d.docs n with
  | none => (.nothing, none)
  | some doc =>
    if doc.im_app_purged_slots.isSome then (.nothing, none) else reply answer (.remove n) none none

def applyReceipt (id boundary : ℕ) : Outcome :=
  match d.receipts.find? fun receipt => receipt.id = id with
  | none => (.nothing, none)
  | some receipt =>
    if receipt.boundary = 0 ∨ receipt.boundary ≠ boundary then (.nothing, none)
    else reply answer .nothing (some (.applying id boundary receipt.expires_at)) none

def applyChecked (id boundary expires_at : ℕ) : Outcome :=
  if expires_at ≤ d.localTime then (.nothing, none)
  else reply answer .nothing (some (.setMinSeq id boundary)) none

def advanceCall : Call → Outcome
  | .bodyPurgeBatch => reply answer .nothing (some (.finding d.localTime)) none
  | .finding now => reply answer .nothing (nextReceipt (d.batch now)) none
  | .attempting receipt rest =>
    reply answer (.attempted receipt.id) (some (.purgeBodyReceipt receipt rest)) (nextReceipt rest)
  | .purgeBodyReceipt receipt rest => purgeBodyReceipt d answer receipt rest
  | .inserting receipt next n rest =>
    reply answer (.skeleton (docOf next)) (some (.scrubbing receipt next n rest)) (nextReceipt rest)
  | .scrubbing receipt next n rest => imAppRetentionPurgeDoc d answer receipt next n rest
  | .progressing receipt next n rest => purgeProgress d answer receipt next n rest
  | .finishing receipt rest =>
    reply answer (.body_done receipt.id receipt.boundary) (nextReceipt rest) (nextReceipt rest)
  | .guardedWrite n index update => imAppRetentionGuardedWrite d answer n index update
  | .create n contents => createDoc d answer n contents
  | .deleteDoc n => imAppRetentionDeleteDoc d answer n
  | .deleteUnfenced n => deleteUnfenced d answer n
  | .apply id boundary => applyReceipt d answer id boundary
  | .applying id boundary expires_at => applyChecked d answer id boundary expires_at
  | .setMinSeq id boundary => reply answer (.min_seq boundary) (some (.markBodyPurgeReceipt id)) none
  | .markBodyPurgeReceipt id => reply answer (.applied id) none none

end Handlers

def Call.opens : Call → Bool
  | .bodyPurgeBatch | .guardedWrite _ _ _ | .create _ _ | .deleteDoc _ => true
  | .apply _ boundary => 0 < boundary && boundary < seqLimit
  | _ => false

/-- Time, the receipts that snapshots write, and their expiry. -/
inductive Event where
  | tick (seconds : ℕ)
  | snapshot (id boundary expires_at : ℕ)
  | expire (id : ℕ)

def world (d : Conversation) : Event → Option Conversation
  | .tick seconds => some { d with localTime := d.localTime + seconds }
  | .snapshot id boundary expires_at =>
    if d.receipts.any fun receipt => receipt.id = id then none
    else some { d with receipts := d.receipts ++ [⟨id, boundary, expires_at, none, none, false⟩] }
  | .expire id => some { d with receipts := d.receipts.filter fun receipt => receipt.id ≠ id }

/-- The layout that upstream gives to its documents. -/
structure Layout (n : ℕ) (doc : MsgDoc) : Prop where
  length : doc.msgs.length = 100
  placed : ∀ index slot m, doc.msgs[index]? = some slot → slot.msg = some m → m.seq = seqAt n index

/-- A conversation at first has documents without fences, and nothing is purged. -/
structure Initial (d : Conversation) : Prop where
  docs : ∀ n doc, d.docs n = some doc → Layout n doc ∧ doc.im_app_purged_slots = none
  purged : d.im_app_body_purged_before = 0
  receipts : ∀ receipt ∈ d.receipts, receipt.body_done = false
  stored : d.stored = []
  scrubbed : d.scrubbed = []
  rejected : d.rejected = []

def retention : Service Conversation Call Answer Event where
  initial := Initial
  opens := Call.opens
  advance := fun _ d call answer =>
    some (d.write (advanceCall d answer call).1, (advanceCall d answer call).2)
  world := world

end ImApp.BodyPurge
