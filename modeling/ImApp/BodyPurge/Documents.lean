import ImApp.Library.InterleavedCalls

/-!
The message documents of one group conversation: 100 slots each, and beside the slots the
fence below which a slot is purged. With the boundary of the conversation, the progress of
the purge and the receipts of applied boundaries.
-/

namespace ImApp.BodyPurge

structure MsgData where
  seq : ℕ
  group_id : String
  session_type : ℕ
  content : String
  deriving DecidableEq

/-- One slot. -/
structure MsgInfo where
  msg : Option MsgData
  revoke : Option String
  del_list : List String
  is_read : Bool
  deriving DecidableEq

def MsgInfo.empty : MsgInfo := ⟨none, none, [], false⟩

structure MsgDoc where
  msgs : List MsgInfo
  im_app_purged_slots : Option ℕ

def imAppEmptySlots : List MsgInfo := List.replicate 100 .empty

/-- `GetDocID` and `GetMsgIndex`. -/
def docOf (seq : ℕ) : ℕ := (seq - 1) / 100

def indexOf (seq : ℕ) : ℕ := (seq - 1) % 100

/-- The seq of a slot. -/
def seqAt (n index : ℕ) : ℕ := n * 100 + index + 1

/-- An update of one slot, by one of its keys. -/
inductive SlotUpdate where
  | msg (content : String)
  | revoke (operator : String)
  | del_list (users : List String)
  | is_read

def SlotUpdate.apply (group : String) (seq : ℕ) (slot : MsgInfo) : SlotUpdate → MsgInfo
  | .msg content => { slot with msg := some ⟨seq, group, 3, content⟩ }
  | .revoke operator => { slot with revoke := some operator }
  | .del_list users => { slot with del_list := slot.del_list ++ users.filter (· ∉ slot.del_list) }
  | .is_read => { slot with is_read := true }

/-- The condition of a guarded write: no fence, or one that ends at the slot or before it. -/
def MsgDoc.admits (doc : MsgDoc) (index : ℕ) : Bool :=
  match doc.im_app_purged_slots with
  | none => true
  | some slots => slots ≤ index

/-- `$set` or `$addToSet` of one slot. -/
def MsgDoc.update (group : String) (n index : ℕ) (update : SlotUpdate) (doc : MsgDoc) : MsgDoc :=
  { doc with msgs := doc.msgs.modify index fun slot => update.apply group (seqAt n index) slot }

def MsgDoc.clear (doc : MsgDoc) : MsgDoc := { doc with msgs := imAppEmptySlots }

/-- No message in the slot, or one that belongs there. -/
def belongs (group : String) (seq : ℕ) (slot : MsgInfo) : Bool :=
  match slot.msg with
  | none => true
  | some m => m.seq = seq && m.group_id = group && m.session_type = 3

/-- The condition of the scrub. -/
def MsgDoc.scrubs (group : String) (n slots : ℕ) (doc : MsgDoc) : Bool :=
  doc.msgs.length = 100 &&
    (doc.msgs.take slots).zipIdx.all fun entry => belongs group (seqAt n entry.2) entry.1

def MsgDoc.scrub (slots : ℕ) (doc : MsgDoc) : MsgDoc where
  msgs := List.replicate slots .empty ++ doc.msgs.drop slots
  im_app_purged_slots := some (max (doc.im_app_purged_slots.getD 0) slots)

/-- A new document with the messages of one block. -/
def newDoc (group : String) (n : ℕ) (contents : List (ℕ × String)) : MsgDoc where
  msgs := (List.range 100).map fun index =>
    match contents.lookup index with
    | some content => SlotUpdate.apply group (seqAt n index) .empty (.msg content)
    | none => .empty
  im_app_purged_slots := none

/-- An `imAppReceipt` with the marks that are set on it. -/
structure Receipt where
  id : ℕ
  boundary : ℕ
  expires_at : ℕ
  applied_at : Option ℕ
  body_attempted_at : Option ℕ
  body_done : Bool

/-- What happened to a slot, with the boundary and the progress at that moment. -/
structure SlotEvent where
  seq : ℕ
  min_seq : ℕ
  im_app_body_purged_before : ℕ
  deriving DecidableEq

/-- The documents, the seq document of the conversation (zeros where there is none), the
receipts and Mongo's clock; and the history of the slots. -/
structure Conversation where
  group : String
  docs : ℕ → Option MsgDoc
  min_seq : ℕ
  im_app_body_purged_before : ℕ
  receipts : List Receipt
  localTime : ℕ
  stored : List SlotEvent
  scrubbed : List SlotEvent
  rejected : List SlotEvent

inductive Write where
  | nothing
  | attempted (id : ℕ)
  | skeleton (n : ℕ)
  | scrub (n slots : ℕ)
  | progress (next : ℕ)
  | body_done (id boundary : ℕ)
  | store (n index : ℕ) (update : SlotUpdate)
  | reject (n index : ℕ)
  | create (n : ℕ) (contents : List (ℕ × String))
  | clear (n : ℕ)
  | remove (n : ℕ)
  | min_seq (boundary : ℕ)
  | applied (id : ℕ)

namespace Conversation

variable (d : Conversation)

def event (seq : ℕ) : SlotEvent := ⟨seq, d.min_seq, d.im_app_body_purged_before⟩

def setDoc (n : ℕ) (doc : Option MsgDoc) : Conversation :=
  { d with docs := Function.update d.docs n doc }

def setReceipts (p : Receipt → Bool) (f : Receipt → Receipt) : Conversation :=
  { d with receipts := d.receipts.map fun receipt => if p receipt then f receipt else receipt }

/-- The effect of a write whose condition holds. -/
def write : Write → Conversation
  | .nothing => d
  | .attempted id => d.setReceipts (·.id = id) fun receipt =>
    { receipt with body_attempted_at := some d.localTime }
  | .skeleton n => d.setDoc n (some ((d.docs n).getD ⟨imAppEmptySlots, none⟩))
  | .scrub n slots =>
    { d.setDoc n ((d.docs n).map (MsgDoc.scrub slots)) with
      scrubbed := (List.range slots).map (fun index => d.event (seqAt n index)) ++ d.scrubbed }
  | .progress next => { d with im_app_body_purged_before := max d.im_app_body_purged_before next }
  | .body_done id boundary => d.setReceipts (fun receipt => receipt.id = id && receipt.boundary = boundary)
      fun receipt => { receipt with body_done := true }
  | .store n index update =>
    { d.setDoc n ((d.docs n).map (MsgDoc.update d.group n index update)) with
      stored := d.event (seqAt n index) :: d.stored }
  | .reject n index => { d with rejected := d.event (seqAt n index) :: d.rejected }
  | .create n contents =>
    { d.setDoc n (some (newDoc d.group n contents)) with
      stored := ((List.range 100).filter fun index => (contents.lookup index).isSome).map
        (fun index => d.event (seqAt n index)) ++ d.stored }
  | .clear n => d.setDoc n ((d.docs n).map MsgDoc.clear)
  | .remove n => d.setDoc n none
  | .min_seq boundary => { d with min_seq := max d.min_seq boundary }
  | .applied id => d.setReceipts (fun receipt => receipt.id = id && receipt.applied_at.isNone) fun receipt =>
    { receipt with applied_at := some d.localTime }

variable {d} {n m : ℕ} {doc : Option MsgDoc}

@[simp] theorem setDoc_self : (d.setDoc n doc).docs n = doc := Function.update_self ..

@[simp] theorem setDoc_of_ne (h : m ≠ n) : (d.setDoc n doc).docs m = d.docs m := Function.update_of_ne h ..

end Conversation

end ImApp.BodyPurge
