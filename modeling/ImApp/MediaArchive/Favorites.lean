import ImApp.Library.ArchivedItem
import ImApp.Library.InterleavedCalls
import ImApp.Library.UnicodeText

/-!
The row of one user's favorite of one message, and the requests that create it or
archive its media. A request runs in a transaction where the service has a guard:
it then sees its own write before the others do, and another write waits for it.
A copy may take any time and come out as anything; a statement that fails has no
effect.
-/

namespace ImApp.MediaArchive

open ArchivedItem InterleavedCalls Option
open JsonText (Text)
open UnicodeText (trimSpace utf8Length)

/-- The columns of `favorites` that no update touches. -/
structure FavoriteBase where
  id : Nat
  messageID : Text
  type : Text
  senderID : Text
  conversationID : Text

abbrev Favorite := Item FavoriteBase Text

def isMedia (kind : Text) : Bool :=
  kind = "image".toList || kind = "voice".toList || kind = "video".toList || kind = "file".toList

def validFavoriteTypes : List Text :=
  ["text", "emoji", "image", "video", "file", "voice"].map String.toList

def maxContentBytes : Nat := 64 * 1024

structure CreateFavoriteRequest where
  messageID : Text
  type : Text
  content : Text
  senderID : Text
  conversationID : Text

/-- `Guard` and `Media` may be absent. -/
structure FavoriteService where
  guarded : Bool
  hasMedia : Bool

/-- The row as the others see it, and the write of a transaction that is not
committed. `answers` are the favorites that `Create` and `ensureArchived` returned,
`reads` those that a list showed. -/
structure FavoriteData where
  row : Option Favorite
  writer : Option (Nat × Favorite)
  answers : List (Nat × Favorite)
  reads : List (Nat × Favorite)

/-- Where a request stands. -/
inductive FavoriteCall where
  | create (request : CreateFavoriteRequest)
  | looking (request : CreateFavoriteRequest)
  | preserving (request : CreateFavoriteRequest)
  | inserting (request : CreateFavoriteRequest) (content : Text)
  | selecting
  | archiveExisting
  | list
  | copying (existing : Favorite)
  | updating (existing : Favorite) (content : Text)
  | rereading (existing : Favorite)
  | committing (result : Favorite)

/-- What a statement or a copy comes to beside the data. -/
inductive FavoriteChoice where
  | goes
  | fails
  | copied (content : Text)
  | inserted (id : Nat)

/-- The favorite needs no copy any more. -/
def settled (favorite : Favorite) : Bool :=
  !isMedia favorite.base.type || favorite.archived

/-- What a statement of the request sees of the row. -/
def FavoriteData.sees (d : FavoriteData) (id : Nat) : Option Favorite :=
  match d.writer with
  | some (owner, favorite) => if owner = id then some favorite else d.row
  | none => d.row

/-- A write of another transaction makes the statement wait. -/
def FavoriteData.waits (d : FavoriteData) (id : Nat) : Bool :=
  match d.writer with
  | some (owner, _) => owner ≠ id
  | none => false

def FavoriteService.write (s : FavoriteService) (d : FavoriteData) (id : Nat)
    (favorite : Favorite) : FavoriteData :=
  if s.guarded then { d with writer := some (id, favorite) } else { d with row := some favorite }

/-- The end of a request with an error: its transaction is rolled back. -/
def FavoriteData.reject (d : FavoriteData) (id : Nat) : FavoriteData :=
  match d.writer with
  | some (owner, _) => if owner = id then { d with writer := none } else d
  | none => d

/-- The end of a request with a result: its transaction is committed. -/
def FavoriteData.resolve (d : FavoriteData) (id : Nat) (result : Favorite) : FavoriteData :=
  match d.writer with
  | some (owner, favorite) =>
    if owner = id then
      { d with row := some favorite, writer := none, answers := (id, result) :: d.answers }
    else { d with answers := (id, result) :: d.answers }
  | none => { d with answers := (id, result) :: d.answers }

/-- A list reads outside every transaction. -/
def FavoriteData.show (d : FavoriteData) (id : Nat) : FavoriteData :=
  match d.row with
  | some favorite => { d with reads := (id, favorite) :: d.reads }
  | none => d

/-- The first part of `ensureArchived`. -/
def FavoriteService.ensureArchived (s : FavoriteService) (existing : Favorite) :
    Option FavoriteCall :=
  if settled existing then some (.committing existing)
  else if s.hasMedia then some (.copying existing)
  else none

/-- The checks that `Create` makes before it reads. -/
def CreateFavoriteRequest.accepted (request : CreateFavoriteRequest) : Bool :=
  trimSpace request.messageID ≠ [] && trimSpace request.type ≠ [] &&
    validFavoriteTypes.contains (trimSpace request.type) && utf8Length request.content ≤ maxContentBytes

/-- The row that `Create` inserts, archived from the start. -/
def CreateFavoriteRequest.favorite (request : CreateFavoriteRequest) (id : Nat) (content : Text) :
    Favorite where
  base := {
    id
    messageID := trimSpace request.messageID
    type := trimSpace request.type
    senderID := trimSpace request.senderID
    conversationID := trimSpace request.conversationID }
  content := content
  archived := true

/-- Goes on with the next statement, or ends with an error where there is none. -/
def FavoriteData.next (d : FavoriteData) (id : Nat) (call : Option FavoriteCall) :
    FavoriteData × Option FavoriteCall :=
  match call with
  | some call => (d, some call)
  | none => (d.reject id, none)

def FavoriteService.advance (s : FavoriteService) (id : Nat) (d : FavoriteData) :
    FavoriteCall → FavoriteChoice → Option (FavoriteData × Option FavoriteCall)
  | .updating existing _, .fails =>
    -- in a transaction no statement runs after one that failed
    some (if s.guarded then (d.reject id, none) else d.next id (some (.rereading existing)))
  | .committing _, .fails => if s.guarded then some (d.reject id, none) else none
  | _, .fails => some (d.reject id, none)
  | .create request, .goes =>
    some (d.next id (if request.accepted then some (.looking request) else none))
  | .looking request, .goes => match d.sees id with
    | some existing => some (d.next id (s.ensureArchived existing))
    | none => if !isMedia (trimSpace request.type) then
        some (d.next id (some (.inserting request request.content)))
      else some (d.next id (if s.hasMedia then some (.preserving request) else none))
  | .preserving request, .copied content => some (d.next id (some (.inserting request content)))
  | .inserting request content, .inserted newID => if d.waits id then none else match d.sees id with
      | some _ => some (d.next id (some .selecting))
      | none => let favorite := request.favorite newID content
        some ((s.write d id favorite).next id (s.ensureArchived favorite))
  | .selecting, .goes => some (d.next id ((d.sees id).bind s.ensureArchived))
  | .archiveExisting, .goes => some (d.next id ((d.sees id).bind s.ensureArchived))
  | .list, .goes => some (d.show id, none)
  | .copying existing, .copied content => some (d.next id (some (.updating existing content)))
  | .updating existing content, .goes =>
    if d.waits id then none
    else
      match (d.sees id).bind fun row =>
          if row.base.id = existing.base.id then row.archive existing.content content else none with
      | some row => some ((s.write d id row).next id (some (.committing (existing.sealed content))))
      | none => some (d.next id (some (.rereading existing)))
  | .rereading _, .goes =>
    some (d.next id (((d.sees id).filter fun current => current.archived).map .committing))
  | .committing result, .goes => some (d.resolve id result, none)
  | _, _ => none

/-- An older server inserts rows that are not archived. -/
def legacyInsert (d : FavoriteData) (favorite : Favorite) : Option FavoriteData :=
  if d.row.isNone && d.writer.isNone && !favorite.archived then
    some { d with row := some favorite }
  else none

def favoriteService (s : FavoriteService) :
    Service FavoriteData FavoriteCall FavoriteChoice Favorite where
  initial d := d.writer = none ∧ d.answers = [] ∧ d.reads = []
  opens call :=
    match call with
    | .create _ | .archiveExisting | .list => true
    | _ => false
  advance := s.advance
  world := legacyInsert

variable {s : FavoriteService} {id : Nat} {d d' : FavoriteData} {call : FavoriteCall}
  {next : Option FavoriteCall} {choice : FavoriteChoice}

/-- A call that has neither found a favorite nor written one. -/
def FavoriteCall.before : FavoriteCall → Bool
  | .looking _ | .preserving _ | .inserting _ _ | .selecting => true
  | _ => false

/-- A statement reads, ends its call with an error, writes, or answers. -/
inductive FavoriteStep (s : FavoriteService) (id : Nat) (d : FavoriteData) :
    FavoriteCall → FavoriteData → Option FavoriteCall → Prop
  | before (call next : FavoriteCall) (hpre : next.before = true)
      (hcall : ∀ result, call ≠ .committing result) : FavoriteStep s id d call d (some next)
  | found (call : FavoriteCall) (existing : Favorite) (next : FavoriteCall)
      (hsees : d.sees id = some existing) (hnext : s.ensureArchived existing = some next)
      (hcall : ∀ result, call ≠ .committing result) : FavoriteStep s id d call d (some next)
  | copied (existing : Favorite) (content : Text) :
      FavoriteStep s id d (.copying existing) d (some (.updating existing content))
  | lost (existing : Favorite) (content : Text) :
      FavoriteStep s id d (.updating existing content) d (some (.rereading existing))
  | adopted (existing current : Favorite) (hsees : d.sees id = some current)
      (harch : current.archived = true) :
      FavoriteStep s id d (.rereading existing) d (some (.committing current))
  | failed (call : FavoriteCall) (hguard : ∀ result, call = .committing result → s.guarded = true) :
      FavoriteStep s id d call (d.reject id) none
  | inserted (request : CreateFavoriteRequest) (content : Text) (newID : Nat)
      (hfree : d.waits id = false) (hsees : d.sees id = none) :
      FavoriteStep s id d (.inserting request content) (s.write d id (request.favorite newID content))
        (some (.committing (request.favorite newID content)))
  | installed (existing row written : Favorite) (content : Text) (hfree : d.waits id = false)
      (hsees : d.sees id = some row) (hid : row.base.id = existing.base.id)
      (hwritten : row.archive existing.content content = some written) :
      FavoriteStep s id d (.updating existing content) (s.write d id written)
        (some (.committing (existing.sealed content)))
  | listed : FavoriteStep s id d .list (d.show id) none
  | answered (result : Favorite) :
      FavoriteStep s id d (.committing result) (d.resolve id result) none

theorem ensure_step (existing : Favorite) (hsees : d.sees id = some existing)
    (hcall : ∀ result, call ≠ .committing result)
    (h : d.next id (s.ensureArchived existing) = (d', next)) : FavoriteStep s id d call d' next := by
  cases hnext : s.ensureArchived existing with
  | none =>
    rw [hnext] at h
    cases h
    exact .failed call fun result hres => absurd hres (hcall result)
  | some following =>
    rw [hnext] at h
    cases h
    exact .found call existing following hsees hnext hcall

theorem bind_ensure_step (hcall : ∀ result, call ≠ .committing result)
    (h : d.next id ((d.sees id).bind s.ensureArchived) = (d', next)) :
    FavoriteStep s id d call d' next := by
  cases hsees : d.sees id with
  | none =>
    rw [hsees] at h
    cases h
    exact .failed call fun result hres => absurd hres (hcall result)
  | some existing =>
    rw [hsees] at h
    exact ensure_step existing hsees hcall h

/-- A call that has nothing to commit may end with an error at any statement. -/
theorem failed_step (hcall : ∀ result, call ≠ .committing result)
    (h : some (d.reject id, (none : Option FavoriteCall)) = some (d', next)) :
    FavoriteStep s id d call d' next := by
  cases h
  exact .failed call fun result hres => absurd hres (hcall result)

theorem before_step (following : FavoriteCall) (hpre : following.before = true)
    (hcall : ∀ result, call ≠ .committing result)
    (h : some (d.next id (some following)) = some (d', next)) : FavoriteStep s id d call d' next := by
  cases h
  exact .before call following hpre hcall

theorem looking_step {request : CreateFavoriteRequest}
    (h : s.advance id d (.looking request) .goes = some (d', next)) :
    FavoriteStep s id d (.looking request) d' next := by
  have hcall : ∀ result, FavoriteCall.looking request ≠ .committing result := fun _ h => by cases h
  simp only [FavoriteService.advance] at h
  cases hsees : d.sees id with
  | some existing =>
    rw [hsees] at h
    exact ensure_step existing hsees hcall (some.inj h)
  | none =>
    rw [hsees] at h
    dsimp only at h
    split at h
    · exact before_step _ rfl hcall h
    split at h
    · exact before_step _ rfl hcall h
    exact failed_step hcall h

theorem inserting_step {request : CreateFavoriteRequest} {content : Text} {newID : Nat}
    (h : s.advance id d (.inserting request content) (.inserted newID) = some (d', next)) :
    FavoriteStep s id d (.inserting request content) d' next := by
  simp only [FavoriteService.advance] at h
  split at h
  · cases h
  rename_i hfree
  cases hsees : d.sees id with
  | some existing =>
    rw [hsees] at h
    exact before_step _ rfl (fun _ h => by cases h) h
  | none =>
    rw [hsees] at h
    have hset : s.ensureArchived (request.favorite newID content) =
        some (.committing (request.favorite newID content)) := by
      simp [FavoriteService.ensureArchived, settled, CreateFavoriteRequest.favorite]
    rw [hset] at h
    cases h
    exact .inserted request content newID (Bool.eq_false_iff.mpr hfree) hsees

theorem updating_step {existing : Favorite} {content : Text}
    (h : s.advance id d (.updating existing content) .goes = some (d', next)) :
    FavoriteStep s id d (.updating existing content) d' next := by
  simp only [FavoriteService.advance] at h
  split at h
  · cases h
  rename_i hfree
  split at h
  · rename_i written hwritten
    obtain ⟨row, hsees, hrow⟩ := Option.bind_eq_some_iff.mp hwritten
    split at hrow
    · rename_i hid
      cases h
      exact .installed existing row written content (Bool.eq_false_iff.mpr hfree) hsees hid hrow
    cases hrow
  cases h
  exact .lost existing content

theorem rereading_step {existing : Favorite}
    (h : s.advance id d (.rereading existing) .goes = some (d', next)) :
    FavoriteStep s id d (.rereading existing) d' next := by
  simp only [FavoriteService.advance] at h
  cases hcur : (d.sees id).filter fun current => current.archived with
  | none =>
    rw [hcur] at h
    exact failed_step (fun _ h => by cases h) h
  | some current =>
    rw [hcur] at h
    cases h
    obtain ⟨hsees, harch⟩ := Option.filter_eq_some_iff.mp hcur
    exact .adopted existing current hsees harch

theorem failing_step (h : s.advance id d call .fails = some (d', next)) :
    FavoriteStep s id d call d' next := by
  cases call with
  | updating existing content =>
    simp only [FavoriteService.advance] at h
    split at h
    · exact failed_step (fun _ h => by cases h) h
    cases h
    exact .lost existing content
  | committing result =>
    simp only [FavoriteService.advance] at h
    split at h
    · rename_i hguard
      cases h
      exact .failed _ fun _ _ => hguard
    cases h
  | create _ | looking _ | preserving _ | inserting _ _ | selecting | archiveExisting | list
  | copying _ | rereading _ => exact failed_step (fun _ h => by cases h) h

theorem going_step (h : s.advance id d call .goes = some (d', next)) :
    FavoriteStep s id d call d' next := by
  cases call with
  | create request =>
    simp only [FavoriteService.advance] at h
    split at h
    · exact before_step _ rfl (fun _ h => by cases h) h
    exact failed_step (fun _ h => by cases h) h
  | looking request => exact looking_step h
  | selecting | archiveExisting =>
    exact bind_ensure_step (fun _ h => by cases h) (some.inj h)
  | list =>
    cases h
    exact .listed
  | updating existing content => exact updating_step h
  | rereading existing => exact rereading_step h
  | committing result =>
    cases h
    exact .answered result
  | preserving _ | inserting _ _ | copying _ => cases h

theorem advance_step (h : s.advance id d call choice = some (d', next)) :
    FavoriteStep s id d call d' next := by
  cases choice with
  | fails => exact failing_step h
  | goes => exact going_step h
  | copied content =>
    cases call with
    | preserving request => exact before_step _ rfl (fun _ h => by cases h) h
    | copying existing =>
      cases h
      exact .copied existing content
    | _ => cases h
  | inserted newID =>
    cases call with
    | inserting request content => exact inserting_step h
    | _ => cases h

end ImApp.MediaArchive
