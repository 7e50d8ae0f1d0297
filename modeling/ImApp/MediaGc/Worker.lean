import ImApp.Library.StepSystem
import ImApp.Library.VersionedRead
import ImApp.MediaGc.Record

/-!
Media garbage collection of one managed key: writers that register, upload and
refer to the key, and any number of workers that run passes over the records.
Every update and every read of a document is one step, and a worker may stop
between any two. A writer's call that is refused is no step.
-/

namespace ImApp.MediaGc

open StepSystem

/-- The right to upload that a successful `BeginWrite` gives out. -/
structure Grant where
  version : Nat
  deadline : Time
  deriving DecidableEq

/-- The stored object, with the version that its upload was granted under. -/
structure Upload where
  version : Nat
  size : Nat
  deriving DecidableEq

/-- The number of registrations and uploads so far, and the time of the last. -/
structure Activity where
  count : Nat
  last : Time
  deriving DecidableEq

/-- A record as a pass read it, with the activity before the read. -/
structure Reading where
  record : Record
  activity : Activity
  deriving DecidableEq

structure Stats where
  scanned : Nat
  quarantined : Nat
  deleted : Nat
  bytes : Nat
  deferred : Nat
  deriving DecidableEq

/-- A running pass. Its clock is read once. -/
structure Pass where
  now : Time
  dryRun : Bool
  stats : Stats
  deriving DecidableEq

namespace Pass

def scan (pass : Pass) : Pass :=
  { pass with stats := { pass.stats with scanned := pass.stats.scanned + 1 } }

def quarantined (pass : Pass) : Pass :=
  { pass with stats := { pass.stats with quarantined := pass.stats.quarantined + 1 } }

def defer (pass : Pass) : Pass :=
  { pass with stats := { pass.stats with deferred := pass.stats.deferred + 1 } }

def deleted (pass : Pass) (size : Nat) : Pass :=
  { pass with
    stats := { pass.stats with
      deleted := pass.stats.deleted + 1
      bytes := pass.stats.bytes + size } }

end Pass

/-- The update that a pass runs next on the record it read. -/
inductive Stage where
  | found
  | attempted
  | marking
  | sealing
  | claiming
  deriving DecidableEq

/-- How far the one worker that started the delete has come. -/
inductive DeleteStage where
  | started
  | checked
  | statted (size : Nat)
  | issued (size : Nat)
  | removed (size : Nat)
  deriving DecidableEq

inductive Phase where
  | idle
  | scanning (pass : Pass)
  | judges (pass : Pass) (reading : Reading) (stage : Stage)
  | deletes (pass : Pass) (reading : Reading) (stage : DeleteStage)
  deriving DecidableEq

/-- A delete sent to the object store, and the record version it is for. -/
structure DeleteRequest where
  worker : Nat
  version : Nat
  deriving DecidableEq

/-- `inFlight` are the requests that have not taken effect, `issued` all that were
sent. A request whose sender gave up may take effect at any later time. -/
structure GcState where
  now : Time
  record : Option Record
  object : Option Upload
  grants : List Grant
  activity : Activity
  workers : Nat → Phase
  inFlight : List DeleteRequest
  issued : List DeleteRequest

inductive Action where
  | tick (duration : Time)
  | insert (ready : Bool)
  | beginWrite (ready : Bool)
  | touch (size : Nat) (permanent : Bool)
  | protect (claim : Option Claim)
  | protectOverflow
  | upload (grant : Grant) (size : Nat)
  | run (worker : Nat) (dryRun : Bool)
  | find (worker : Nat)
  | attempt (worker : Nat)
  | judge (worker : Nat) (evidence : Claim → ClaimEvidence)
  | markCandidate (worker : Nat)
  | sealForDelete (worker : Nat)
  | startDelete (worker : Nat)
  | check (worker : Nat)
  | stat (worker : Nat)
  | issue (worker : Nat)
  | land (request : DeleteRequest)
  | answer (worker : Nat)
  | fail (worker : Nat)
  | markDeleted (worker : Nat)
  | stop (worker : Nat)

def GcState.setWorker (s : GcState) (worker : Nat) (phase : Phase) : GcState :=
  { s with workers := Function.update s.workers worker phase }

def GcState.setRecord (s : GcState) (record : Record) : GcState := { s with record := some record }

/-- The activity after a registration or an upload. -/
def Activity.next (activity : Activity) (now : Time) : Activity := ⟨activity.count + 1, now⟩

/-- A writer's update. It is refused when its filter does not match. -/
def register (s : GcState) (update : Record → Option Record) : Option GcState :=
  (s.record.bind update).map fun record =>
    { s with record := some record, activity := s.activity.next s.now }

/-- The upsert of `BeginWrite`. -/
def insert (s : GcState) (ready : Bool) : GcState :=
  match s.record with
  | none => s.setRecord (freshRecord ready)
  | some _ => s

def beginWrite (s : GcState) (ready : Bool) : Option GcState :=
  (register s (Record.beginWrite s.now ready)).map fun t =>
    { t with
      grants := t.record.toList.map (fun record => ⟨record.version, s.now + uploadGrace⟩) ++
        s.grants }

/-- A signed upload, a multipart completion or a server-side copy that arrives in
time. -/
def upload (s : GcState) (grant : Grant) (size : Nat) : Option GcState :=
  if grant ∈ s.grants ∧ s.now ≤ grant.deadline then
    some { s with
      object := some ⟨grant.version, size⟩
      activity := s.activity.next s.now }
  else none

def run (s : GcState) (worker : Nat) (dryRun : Bool) : Option GcState :=
  if s.workers worker = .idle then
    some (s.setWorker worker (.scanning ⟨s.now, dryRun, ⟨0, 0, 0, 0, 0⟩⟩))
  else none

def find (s : GcState) (worker : Nat) : Option GcState :=
  match s.workers worker, s.record with
  | .scanning pass, some record =>
    if record.due pass.now then
      some (s.setWorker worker (.judges pass.scan ⟨record, s.activity⟩ .found))
    else none
  | _, _ => none

def attempt (s : GcState) (worker : Nat) : Option GcState :=
  match s.workers worker with
  | .judges pass reading .found =>
    let next := s.setWorker worker (.judges pass reading .attempted)
    if pass.dryRun then some next
    else match s.record with
      | none => some next
      | some record => some (next.setRecord { record with attemptAt := some s.now })
  | _ => none

/-- What the pass does with a record it has read. -/
def judged (pass : Pass) (reading : Reading) (evidence : Claim → ClaimEvidence) : Phase :=
  if reading.record.state = .opened then
    if !reclaimable reading.record evidence pass.now then .scanning pass.defer
    else match reading.record.candidateAt with
      | none =>
        if pass.dryRun then .scanning pass.quarantined
        else .judges pass.quarantined reading .marking
      | some candidateAt =>
        if pass.now < candidateAt + quarantine then .scanning pass.defer
        else if pass.dryRun then .scanning pass.quarantined
        else .judges pass reading .sealing
  else if pass.dryRun then .scanning pass.quarantined
  else .judges pass reading .claiming

def judge (s : GcState) (worker : Nat) (evidence : Claim → ClaimEvidence) : Option GcState :=
  match s.workers worker with
  | .judges pass reading .attempted => some (s.setWorker worker (judged pass reading evidence))
  | _ => none

/-- The mark's answer is not looked at. -/
def markCandidate (s : GcState) (worker : Nat) : Option GcState :=
  match s.workers worker with
  | .judges pass reading .marking =>
    let next := s.setWorker worker (.scanning pass)
    match s.record.bind (Record.markCandidate reading.record.version s.now) with
    | some record => some (next.setRecord record)
    | none => some next
  | _ => none

def sealForDelete (s : GcState) (worker : Nat) : Option GcState :=
  match s.workers worker with
  | .judges pass reading .sealing =>
    match s.record.bind (Record.sealForDelete reading.record.version) with
    | some record => some ((s.setWorker worker (.judges pass reading .claiming)).setRecord record)
    | none => some (s.setWorker worker (.scanning pass.defer))
  | _ => none

def startDelete (s : GcState) (worker : Nat) : Option GcState :=
  match s.workers worker with
  | .judges pass reading .claiming =>
    match s.record.bind (Record.startDelete reading.record.version) with
    | some record =>
      some ((s.setWorker worker (.deletes pass reading .started)).setRecord record)
    | none => some (s.setWorker worker (.scanning pass.defer))
  | _ => none

/-- `Delete` of the store insists on a sealed record whose delete has started. -/
def check (s : GcState) (worker : Nat) : Option GcState :=
  match s.workers worker with
  | .deletes pass reading .started =>
    if s.record.any (fun record => record.state = .deleting && record.deleteStarted) then
      some (s.setWorker worker (.deletes pass reading .checked))
    else some (s.setWorker worker (.scanning pass.defer))
  | _ => none

/-- An object that is not there counts as removed. -/
def stat (s : GcState) (worker : Nat) : Option GcState :=
  match s.workers worker with
  | .deletes pass reading .checked =>
    match s.object with
    | none => some (s.setWorker worker (.deletes pass reading (.removed 0)))
    | some object => some (s.setWorker worker (.deletes pass reading (.statted object.size)))
  | _ => none

def issue (s : GcState) (worker : Nat) : Option GcState :=
  match s.workers worker with
  | .deletes pass reading (.statted size) =>
    let request : DeleteRequest := ⟨worker, reading.record.version⟩
    let next := s.setWorker worker (.deletes pass reading (.issued size))
    some { next with inFlight := request :: s.inFlight, issued := request :: s.issued }
  | _ => none

/-- The object store removes whatever is stored under the key. -/
def land (s : GcState) (request : DeleteRequest) : Option GcState :=
  if request ∈ s.inFlight then
    some { s with object := none, inFlight := s.inFlight.erase request }
  else none

/-- The store answers a request after it has taken effect. -/
def answer (s : GcState) (worker : Nat) : Option GcState :=
  match s.workers worker with
  | .deletes pass reading (.issued size) =>
    if s.inFlight.any (fun request => request.worker = worker) then none
    else some (s.setWorker worker (.deletes pass reading (.removed size)))
  | _ => none

/-- `Delete` returns an error, whether or not a request took effect. -/
def fail (s : GcState) (worker : Nat) : Option GcState :=
  match s.workers worker with
  | .deletes _ _ (.removed _) => none
  | .deletes pass _ _ => some (s.setWorker worker (.scanning pass.defer))
  | _ => none

def markDeleted (s : GcState) (worker : Nat) : Option GcState :=
  match s.workers worker with
  | .deletes pass reading (.removed size) =>
    match s.record.bind (Record.markDeleted reading.record.version size) with
    | some record =>
      some ((s.setWorker worker (.scanning (pass.deleted size))).setRecord record)
    | none => some (s.setWorker worker .idle)
  | _ => none

def step (s : GcState) : Action → Option GcState
  | .tick duration => some { s with now := s.now + duration }
  | .insert ready => some (insert s ready)
  | .beginWrite ready => beginWrite s ready
  | .touch size permanent => register s (Record.touch s.now size permanent)
  | .protect claim => register s (Record.protect claim)
  | .protectOverflow => register s Record.protectPermanently
  | .upload grant size => upload s grant size
  | .run worker dryRun => run s worker dryRun
  | .find worker => find s worker
  | .attempt worker => attempt s worker
  | .judge worker evidence => judge s worker evidence
  | .markCandidate worker => markCandidate s worker
  | .sealForDelete worker => sealForDelete s worker
  | .startDelete worker => startDelete s worker
  | .check worker => check s worker
  | .stat worker => stat s worker
  | .issue worker => issue s worker
  | .land request => land s request
  | .answer worker => answer s worker
  | .fail worker => fail s worker
  | .markDeleted worker => markDeleted s worker
  | .stop worker => some (s.setWorker worker .idle)

/-- No record of the key yet, and no worker. -/
structure Initial (s : GcState) : Prop where
  record : s.record = none
  object : s.object = none
  grants : s.grants = []
  activity : s.activity.last ≤ s.now
  workers : ∀ worker, s.workers worker = .idle
  inFlight : s.inFlight = []

def machine : Machine GcState Action where
  initial := Initial
  step := step

end ImApp.MediaGc
