import ImApp.Retention.Snapshot

/-!
The record of one managed media key and its updates. Each update is a filter and
a change that the database applies at once; one whose filter does not match
changes nothing. Registrations and uploads compete with the seal of a deletion on
this one document.
-/

namespace ImApp.MediaGc

open ImApp.Retention (lowerHex)
open JsonText (Text)

/-- Milliseconds of the database's clock. -/
abbrev Time := Nat

/-- Longer than any upload signature is valid. -/
def uploadGrace : Time := 8 * 24 * 60 * 60 * 1000

def quarantine : Time := 24 * 60 * 60 * 1000

def maxClaims : Nat := 512

structure Claim where
  group : Text
  sender : Text
  message : Text
  deriving DecidableEq

def isGroupID (text : Text) : Bool := text.length = 32 && text.all lowerHex

/-- The claim names a group message, so the message's expiry can end it. -/
def Claim.complete (claim : Claim) : Bool :=
  isGroupID claim.group && claim.sender ≠ [] && claim.message ≠ []

/-- The source's open, deleting and deleted. A record is sealed while it is
`deleting`. -/
inductive RecordState where
  | opened
  | deleting
  | deleted
  deriving DecidableEq

structure Record where
  state : RecordState
  version : Nat
  permanent : Bool
  claims : List Claim
  holdUntil : Option Time
  candidateAt : Option Time
  attemptAt : Option Time
  size : Nat
  deleteStarted : Bool
  deletedBytes : Nat
  deriving DecidableEq

/-- What the upsert of `BeginWrite` inserts for an unknown key. -/
def freshRecord (ready : Bool) : Record where
  state := .opened
  version := 0
  permanent := !ready
  claims := []
  holdUntil := none
  candidateAt := none
  attemptAt := none
  size := 0
  deleteStarted := false
  deletedBytes := 0

namespace Record

/-- The second update of `BeginWrite`. A deleted key starts over. -/
def beginWrite (now : Time) (ready : Bool) (record : Record) : Option Record :=
  if record.state = .deleting then none
  else
    let reopened := record.state = .deleted
    some { record with
      claims := if reopened then [] else record.claims
      permanent := if reopened then !ready else record.permanent
      state := .opened
      version := record.version + 1
      holdUntil := some (now + uploadGrace)
      candidateAt := none }

def touch (now : Time) (size : Nat) (permanent : Bool) (record : Record) : Option Record :=
  if record.state = .opened then
    some { record with
      size := size
      version := record.version + 1
      candidateAt := none
      holdUntil := some (now + uploadGrace)
      permanent := record.permanent || permanent }
  else none

/-- Adds a claim to the set of claims. -/
def addClaim (claims : List Claim) (claim : Claim) : List Claim :=
  if claim ∈ claims then claims else claims ++ [claim]

def protectPermanently (record : Record) : Option Record :=
  if record.state = .opened then
    some { record with permanent := true, version := record.version + 1, candidateAt := none }
  else none

def protectUntil (claim : Claim) (record : Record) : Option Record :=
  if record.state = .opened ∧ record.claims.length < maxClaims then
    some { record with
      claims := addClaim record.claims claim
      version := record.version + 1
      candidateAt := none }
  else none

end Record

/-- A reference that never expires: one without a claim, or whose claim names no
group message. -/
def permanentClaim (claim : Option Claim) : Bool := claim.all fun claim => !claim.complete

/-- The first update of `Protect`. -/
def Record.protect (claim : Option Claim) (record : Record) : Option Record :=
  match claim with
  | none => record.protectPermanently
  | some claim =>
    if claim.complete then record.protectUntil claim else record.protectPermanently

structure StoredMessage where
  id : Text
  sender : Text
  group : Text
  session : Nat
  seq : Int

/-- What the reads for one claim return: the conversation's minimum, its receipts
with the time they were applied, and the message documents that hold the claimed
message. -/
structure ClaimEvidence where
  minSeq : Option Int
  receipts : List (Int × Time)
  documents : List (List (Option StoredMessage))
  readable : Bool

/-- The newest boundary that has been applied for the quarantine time. -/
def ClaimEvidence.boundary (evidence : ClaimEvidence) (minSeq : Int) (now : Time) : Option Int :=
  let applied := evidence.receipts.filter fun receipt =>
    receipt.1 ≤ minSeq && 1 < receipt.1 && receipt.2 + quarantine ≤ now
  (applied.map Prod.fst).max?

def Claim.names (claim : Claim) (message : StoredMessage) : Bool :=
  message.id = claim.message && message.sender = claim.sender

def Claim.expiredAt (claim : Claim) (boundary : Int) (message : StoredMessage) : Bool :=
  message.group = claim.group && message.session = 3 && 0 < message.seq && message.seq < boundary

/-- Every stored copy of the claimed message is below an applied boundary, and
there is one. More than three documents are too many to judge. -/
def Claim.expired (claim : Claim) (evidence : ClaimEvidence) (now : Time) : Bool :=
  match evidence.minSeq with
  | none => false
  | some minSeq =>
    1 < minSeq && match evidence.boundary minSeq now with
    | none => false
    | some boundary =>
      let named := (evidence.documents.flatten.filterMap id).filter claim.names
      evidence.readable && evidence.documents.length ≤ 3 && !named.isEmpty &&
        named.all (claim.expiredAt boundary)

/-- A missing hold reads as the zero time, which is before any other. -/
def reclaimable (record : Record) (evidence : Claim → ClaimEvidence) (now : Time) : Bool :=
  record.state = .opened && !record.permanent && record.holdUntil.all (fun hold => hold < now) &&
    record.claims.all fun claim => claim.complete && claim.expired (evidence claim) now

namespace Record

/-- The filter of a pass over the records. -/
def due (now : Time) (record : Record) : Bool :=
  (record.state = .opened || record.state = .deleting) && !record.permanent &&
    record.holdUntil.any fun hold => hold < now

/-- The filter of the mark and of the seal: still the version that was read. -/
def sealable (version : Nat) (record : Record) : Bool :=
  record.state = .opened && record.version = version && !record.permanent

def markCandidate (version now : Nat) (record : Record) : Option Record :=
  if record.sealable version then some { record with candidateAt := some now } else none

def sealForDelete (version : Nat) (record : Record) : Option Record :=
  if record.sealable version then some { record with state := .deleting } else none

/-- Only one worker starts the delete of a sealed version. -/
def startDelete (version : Nat) (record : Record) : Option Record :=
  if record.state = .deleting ∧ record.version = version ∧ record.deleteStarted = false then
    some { record with deleteStarted := true }
  else none

def markDeleted (version size : Nat) (record : Record) : Option Record :=
  if record.state = .deleting ∧ record.version = version then
    some { record with state := .deleted, deletedBytes := size, deleteStarted := false }
  else none

end Record

end ImApp.MediaGc
