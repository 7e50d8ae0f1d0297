import ImApp.Library.UnicodeText
import Mathlib.Algebra.Order.Ring.Int
import Mathlib.Data.List.Sort

/-!
One page of the member list of a group. The rank of a role is computed twice, by
the statement that orders and selects the rows and by the code that builds the
cursor; the first compares the stored text, the second a trimmed one in lower case.
-/

namespace ImApp.MemberList

open JsonText (Text)
open UnicodeText (trimSpace toLower)

/-- The text of a `UUID` column. -/
structure UserID where
  text : Text
  length : text.length = 36
  plain : text.all (fun c => "0123456789abcdef-".toList.contains c) = true

theorem UserID.ext_text {a b : UserID} (h : a.text = b.text) : a = b := by
  cases a
  cases b
  cases h
  rfl

instance : DecidableEq UserID := fun a b =>
  decidable_of_iff (a.text = b.text) ⟨UserID.ext_text, fun h => h ▸ rfl⟩

/-- The order of the database on texts. It is total, and only equal texts tie. -/
structure Collation where
  le : Text → Text → Bool
  total : ∀ a b, le a b = true ∨ le b a = true
  trans : ∀ a b c, le a b = true → le b c = true → le a c = true
  antisymm : ∀ a b, le a b = true → le b a = true → a = b

def Collation.lt (order : Collation) (a b : Text) : Bool := !order.le b a

/-- The `CASE` of the statement. -/
def roleOrder (role : Text) : Nat :=
  if role = "owner".toList then 0 else if role = "admin".toList then 1 else 2

def memberRoleRank (role : Text) : Nat :=
  let role := toLower (trimSpace role)
  if role = "owner".toList then 0 else if role = "admin".toList then 1 else 2

/-- The value of a list of digits. -/
def digitsValue (digits : Text) : Nat :=
  digits.foldl (fun value c => 10 * value + (c.toNat - '0'.toNat)) 0

/-- `strconv.Atoi`, on an `int` of 64 bits. -/
def atoi (text : Text) : Option Int :=
  let (negative, digits) := match text with
    | '-' :: digits => (true, digits)
    | '+' :: digits => (false, digits)
    | digits => (false, digits)
  if digits = [] || !digits.all Char.isDigit then none
  else
    let value : Int := if negative then -(digitsValue digits : Int) else digitsValue digits
    if -2 ^ 63 ≤ value ∧ value < 2 ^ 63 then some value else none

/-- A cursor without a colon is the id alone, from older clients. -/
def parseMemberListCursor (cursor : Text) : Option (Int × Text) :=
  let cursor := trimSpace cursor
  if cursor = [] then none
  else if ':' ∈ cursor then
    let id := trimSpace ((cursor.dropWhile (· ≠ ':')).drop 1)
    match atoi (cursor.takeWhile (· ≠ ':')) with
    | none => none
    | some r => if id = [] || r < 0 || 2 < r then none else some (r, id)
  else some (2, cursor)

/-- `%d:%s` on a rank and an id. -/
def formatCursor (rank : Nat) (id : Text) : Text :=
  (toString rank).toList ++ ':' :: id

/-- A row of `group_members` with its user. -/
structure MemberRow where
  userID : UserID
  userNickname : Option Text
  userAvatar : Option Text
  userStatus : Option Text
  nickname : Option Text
  role : Text
  mutedUntil : Option Nat
  joinedAt : Nat

/-- A group with what the statement joins: one row for each user. -/
structure Group where
  status : Text
  rows : List MemberRow
  keyed : (rows.map MemberRow.userID).Nodup

structure GroupMember where
  id : Text
  nickname : Text
  groupNickname : Text
  displayName : Text
  avatar : Text
  role : Text
  mutedUntil : Option Nat
  isMuted : Bool
  joinedAt : Nat
  memberRemark : Text
  deriving DecidableEq

structure GroupMemberPage where
  items : List GroupMember
  hasMore : Bool
  nextCursor : Text
  deriving DecidableEq

def MemberRow.active (row : MemberRow) : Bool :=
  row.userStatus.getD "active".toList = "active".toList

def Group.active (group : Group) : List MemberRow := group.rows.filter MemberRow.active

/-- The rows that the statement selects for a cursor. -/
def follows (order : Collation) : Option (Int × Text) → MemberRow → Bool
  | none, _ => true
  | some (rank, id), row =>
    rank < roleOrder row.role || (roleOrder row.role = rank && order.lt id row.userID.text)

/-- The `ORDER BY` of the statement. -/
def ordered (order : Collation) (a b : MemberRow) : Prop :=
  roleOrder a.role < roleOrder b.role ∨
    (roleOrder a.role = roleOrder b.role ∧ order.le a.userID.text b.userID.text = true)

instance (order : Collation) : DecidableRel (ordered order) := fun _ _ =>
  inferInstanceAs (Decidable (_ ∨ _))

/-- What a call reads beside the members: the clock and the remarks of the viewer,
none where they cannot be read. -/
structure Reads where
  now : Nat
  remarks : Option (List (Text × Text))

def Reads.remark (reads : Reads) (id : Text) : Text :=
  ((reads.remarks.getD []).lookup id).getD []

/-- The columns of the statement, with the remark that is added at the end. -/
def Reads.member (reads : Reads) (row : MemberRow) : GroupMember :=
  let nickname := row.userNickname.getD []
  let groupNickname := row.nickname.getD []
  let mutedUntil := row.mutedUntil.filter (reads.now < ·)
  { id := row.userID.text
    nickname, groupNickname
    displayName := if groupNickname = [] then nickname else groupNickname
    avatar := row.userAvatar.getD []
    role := row.role
    mutedUntil
    isMuted := mutedUntil.isSome
    joinedAt := row.joinedAt
    memberRemark := reads.remark row.userID.text }

def pageLimit (limit : Int) : Nat :=
  if limit ≤ 0 ∨ 200 < limit then 100 else limit.toNat

/-- The viewer has a row in the group and the group is active. -/
def Group.admits (group : Group) (uid : UserID) : Bool :=
  group.status = "active".toList && group.rows.any (fun row => row.userID = uid)

/-- The rows of a page and one more, where there is one. -/
def Group.select (order : Collation) (group : Group) (cursor : Text) (limit : Nat) :
    List MemberRow :=
  ((group.active.filter (follows order (parseMemberListCursor cursor))).insertionSort
    (ordered order)).take (limit + 1)

inductive ListFailure where
  | forbidden
  deriving DecidableEq

def listMembers (order : Collation) (group : Group) (reads : Reads) (uid : UserID)
    (cursor : Text) (limit : Int) : Except ListFailure GroupMemberPage :=
  if group.admits uid then
    let items := (group.select order cursor (pageLimit limit)).map reads.member
    if pageLimit limit < items.length then
      let kept := items.take (pageLimit limit)
      .ok {
        items := kept
        hasMore := true
        nextCursor := match kept.getLast? with
          | none => []
          | some last => formatCursor (memberRoleRank last.role) last.id }
    else .ok { items, hasMore := false, nextCursor := [] }
  else .error .forbidden

/-- What a client collects that follows the cursors from one on. -/
inductive Follows (order : Collation) (group : Group) (uid : UserID) (limit : Int) :
    Text → List GroupMember → Prop
  | last {cursor : Text} (reads : Reads) {page : GroupMemberPage}
      (hpage : listMembers order group reads uid cursor limit = .ok page)
      (hend : page.hasMore = false) : Follows order group uid limit cursor page.items
  | more {cursor : Text} (reads : Reads) {page : GroupMemberPage} {rest : List GroupMember}
      (hpage : listMembers order group reads uid cursor limit = .ok page)
      (hmore : page.hasMore = true)
      (hrest : Follows order group uid limit page.nextCursor rest) :
      Follows order group uid limit cursor (page.items ++ rest)

end ImApp.MemberList
