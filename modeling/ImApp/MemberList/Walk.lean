import ImApp.MemberList.Pages
import ImApp.Library.KeysetPaging

/-!
Following the cursors of the member list. A cursor built from the last row of a
page stands for that row in the order of the statement where both ranks of its
role agree; the pages then go on where they stopped. Where they do not agree the
next page starts at or before that row, and it is read again.
-/

namespace ImApp.MemberList

open List
open JsonText (Text)
open UnicodeText (trimSpace toLower isSpace trimSpace_eq_self)

variable {order : Collation} {group : Group} {uid : UserID} {limit : Int} {role : Text}

/-- The role is one of the two that rank before the others, or no spelling of them. -/
def plainRole (role : Text) : Prop :=
  toLower (trimSpace role) ∈ ["owner".toList, "admin".toList] →
    role ∈ ["owner".toList, "admin".toList]

instance (role : Text) : Decidable (plainRole role) :=
  inferInstanceAs (Decidable (_ → _))

theorem rank_le (role : Text) :
    (if role = "owner".toList then 0 else if role = "admin".toList then 1 else 2) ≤ 2 := by
  split
  · omega
  split <;> omega

theorem memberRoleRank_le (role : Text) : memberRoleRank role ≤ roleOrder role := by
  by_cases howner : role = "owner".toList
  · subst howner
    decide
  by_cases hadmin : role = "admin".toList
  · subst hadmin
    decide
  have hlast : roleOrder role = 2 := by
    unfold roleOrder
    rw [if_neg howner, if_neg hadmin]
  have hbound : memberRoleRank role ≤ 2 := rank_le _
  omega

theorem rank_eq_iff : memberRoleRank role = roleOrder role ↔ plainRole role := by
  unfold plainRole
  by_cases howner : role = "owner".toList
  · subst howner
    decide
  by_cases hadmin : role = "admin".toList
  · subst hadmin
    decide
  simp only [memberRoleRank, roleOrder, howner, hadmin, if_false, mem_cons, not_mem_nil, or_false]
  split
  · simp_all
  split <;> simp_all

theorem UserID.not_space (id : UserID) {c : Char} (hc : c ∈ id.text) : isSpace c = false := by
  have hall : "0123456789abcdef-".toList.all (fun c => !isSpace c) = true := by decide
  have hplain := contains_iff_mem.mp (all_eq_true.mp id.plain c hc)
  have hspace := all_eq_true.mp hall c hplain
  rw [Bool.not_eq_true'] at hspace
  exact hspace

theorem UserID.trim (id : UserID) : trimSpace id.text = id.text := by
  apply trimSpace_eq_self
  · intro c hc
    exact id.not_space (mem_of_mem_head? hc)
  intro c hc
  exact id.not_space (mem_of_mem_getLast? hc)

theorem UserID.ne_nil (id : UserID) : id.text ≠ [] := by
  intro hnil
  have hlen := id.length
  rw [hnil] at hlen
  cases hlen

/-- A rank is one digit, so the cursor's first colon is the one in front of the id. -/
theorem parse_format (id : UserID) {rank : Nat} (hrank : rank ≤ 2) :
    parseMemberListCursor (formatCursor rank id.text) = some ((rank : Int), id.text) := by
  obtain ⟨digit, hdigit, hspace, hcolon, hvalue⟩ : ∃ digit : Char,
      (toString rank).toList = [digit] ∧ isSpace digit = false ∧ digit ≠ ':' ∧
        atoi [digit] = some (rank : Int) := by
    obtain rfl | rfl | rfl : rank = 0 ∨ rank = 1 ∨ rank = 2 := by omega
    · exact ⟨'0', by decide⟩
    · exact ⟨'1', by decide⟩
    exact ⟨'2', by decide⟩
  have hcursor : formatCursor rank id.text = digit :: ':' :: id.text := by
    unfold formatCursor
    rw [hdigit]
    rfl
  have htrim : trimSpace (digit :: ':' :: id.text) = digit :: ':' :: id.text := by
    apply trimSpace_eq_self
    · intro c hc
      rw [← Option.some.inj (Option.mem_def.mp hc)]
      exact hspace
    intro c hc
    rw [getLast?_cons_cons, getLast?_cons_of_ne_nil id.ne_nil] at hc
    exact id.not_space (mem_of_mem_getLast? hc)
  rw [hcursor]
  simp only [parseMemberListCursor, htrim]
  simp [hcolon, hvalue, id.trim, id.ne_nil]
  omega

theorem parse_cursor (role : Text) (id : UserID) :
    parseMemberListCursor (formatCursor (memberRoleRank role) id.text) =
      some ((memberRoleRank role : Int), id.text) :=
  parse_format id (rank_le _)

instance : Std.Total (ordered order) where
  total a b := by
    rcases Nat.lt_trichotomy (roleOrder a.role) (roleOrder b.role) with hlt | heq | hgt
    · exact Or.inl (Or.inl hlt)
    · rcases order.total a.userID.text b.userID.text with hle | hge
      · exact Or.inl (Or.inr ⟨heq, hle⟩)
      exact Or.inr (Or.inr ⟨heq.symm, hge⟩)
    exact Or.inr (Or.inl hgt)

instance : IsTrans MemberRow (ordered order) where
  trans a b c hab hbc := by
    rcases hab with hab | ⟨hab, hleft⟩
    · rcases hbc with hbc | ⟨hbc, _⟩
      · exact Or.inl (by omega)
      exact Or.inl (by omega)
    rcases hbc with hbc | ⟨hbc, hright⟩
    · exact Or.inl (by omega)
    exact Or.inr ⟨by omega, order.trans _ _ _ hleft hright⟩

theorem ordered_antisymm {a b : MemberRow} (hab : ordered order a b) (hba : ordered order b a) :
    a.userID = b.userID := by
  rcases hab with hab | ⟨_, hle⟩
  · rcases hba with hba | ⟨hba, _⟩ <;> omega
  rcases hba with hba | ⟨_, hge⟩
  · omega
  exact UserID.ext_text (order.antisymm _ _ hle hge)

theorem active_keyed (order : Collation) (group : Group) :
    KeysetPaging.Keyed (ordered order) group.active := by
  have hrows : group.rows.Pairwise (fun a b => a.userID ≠ b.userID) :=
    pairwise_map.mp group.keyed
  have hactive : group.active.Pairwise (fun a b => a.userID ≠ b.userID) := hrows.filter _
  refine hactive.imp ?_
  intro a b hne hboth
  exact hne (ordered_antisymm hboth.1 hboth.2)

/-- The active members in the order of the list. -/
def arranged (order : Collation) (group : Group) : List MemberRow :=
  group.active.insertionSort (ordered order)

theorem arranged_sorted (order : Collation) (group : Group) :
    (arranged order group).Pairwise (KeysetPaging.Before (ordered order)) :=
  (active_keyed order group).sorted

theorem before_iff {a b : MemberRow} : KeysetPaging.Before (ordered order) a b ↔
    follows order (some ((roleOrder a.role : Int), a.userID.text)) b = true := by
  simp only [KeysetPaging.Before, ordered, follows, Collation.lt, Bool.or_eq_true,
    Bool.and_eq_true, decide_eq_true_eq, Bool.not_eq_true', not_or, not_and]
  have htotal := order.total a.userID.text b.userID.text
  constructor
  · rintro ⟨hlt | ⟨heq, _⟩, hnot⟩
    · exact Or.inl (by omega)
    exact Or.inr ⟨by omega, Bool.eq_false_iff.mpr (hnot.2 heq.symm)⟩
  rintro (hlt | ⟨heq, hnot⟩)
  · exact ⟨Or.inl (by omega), by omega, by omega⟩
  have hle : order.le a.userID.text b.userID.text = true := by
    rcases htotal with hle | hge
    · exact hle
    rw [hnot] at hge
    cases hge
  exact ⟨Or.inr ⟨by omega, hle⟩, by omega, fun _ => by simp [hnot]⟩

theorem follows_of_before {a b : MemberRow} {rank : Nat} (hrank : rank ≤ roleOrder a.role)
    (h : KeysetPaging.Before (ordered order) a b) :
    follows order (some ((rank : Int), a.userID.text)) b = true := by
  have hfollows := before_iff.mp h
  simp only [follows, Bool.or_eq_true, Bool.and_eq_true, decide_eq_true_eq] at hfollows ⊢
  by_cases hsmaller : (rank : Int) < roleOrder b.role
  · exact Or.inl hsmaller
  rcases hfollows with hlt | ⟨heq, hid⟩
  · omega
  exact Or.inr ⟨by omega, hid⟩

theorem follows_self {a : MemberRow} {rank : Nat} (hrank : rank < roleOrder a.role) :
    follows order (some ((rank : Int), a.userID.text)) a = true := by
  simp only [follows, Bool.or_eq_true, decide_eq_true_eq]
  exact Or.inl (by omega)

/-- The active members that a cursor leaves, in the order of the list. -/
def remaining (order : Collation) (group : Group) (cursor : Text) : List MemberRow :=
  (arranged order group).filter (follows order (parseMemberListCursor cursor))

theorem select_eq (order : Collation) (group : Group) (cursor : Text) (size : Nat) :
    group.select order cursor size = (remaining order group cursor).take (size + 1) := by
  unfold Group.select remaining
  rw [(active_keyed order group).sort_filter]
  rfl

theorem remaining_nil (order : Collation) (group : Group) :
    remaining order group [] = arranged order group :=
  filter_eq_self.mpr fun _ _ => rfl

theorem pageLimit_pos (limit : Int) : 0 < pageLimit limit := by
  unfold pageLimit
  split <;> omega

theorem listMembers_admits {reads : Reads} {cursor : Text} {page : GroupMemberPage}
    (h : listMembers order group reads uid cursor limit = .ok page) : group.admits uid = true := by
  unfold listMembers at h
  split at h
  · assumption
  cases h

/-- The page for a cursor, from the rows that the cursor leaves: all of them, or
as many as fit with a cursor made of the last one. -/
theorem listMembers_eq (limit : Int) (hadmits : group.admits uid = true) (reads : Reads)
    (cursor : Text) : (listMembers order group reads uid cursor limit = .ok {
        items := (remaining order group cursor).map reads.member
        hasMore := false
        nextCursor := [] } ∧
      (remaining order group cursor).length ≤ pageLimit limit) ∨
    ∃ front last rest, remaining order group cursor = front ++ last :: rest ∧ rest ≠ [] ∧
      front.length + 1 = pageLimit limit ∧
      listMembers order group reads uid cursor limit = .ok {
        items := (front ++ [last]).map reads.member
        hasMore := true
        nextCursor := formatCursor (memberRoleRank last.role) last.userID.text } := by
  have hpos := pageLimit_pos limit
  unfold listMembers
  rw [if_pos hadmits, select_eq]
  generalize pageLimit limit = size at hpos ⊢
  generalize remaining order group cursor = rows
  rcases Nat.lt_or_ge size rows.length with hmore | hshort
  · apply Or.inr
    obtain ⟨front, last, hfront⟩ : ∃ front last, rows.take size = front ++ [last] := by
      rcases eq_nil_or_concat (rows.take size) with hnil | ⟨front, last, hconcat⟩
      · have hlen := congrArg List.length hnil
        rw [length_take, length_nil] at hlen
        omega
      exact ⟨front, last, by rw [hconcat, concat_eq_append]⟩
    have hlen := congrArg List.length hfront
    rw [length_take, length_append, length_singleton] at hlen
    refine ⟨front, last, rows.drop size, ?_, ?_, by omega, ?_⟩
    · rw [← singleton_append, ← append_assoc, ← hfront, take_append_drop]
    · intro hnil
      have hdrop := congrArg List.length hnil
      rw [length_drop, length_nil] at hdrop
      omega
    have hitems : size < ((rows.take (size + 1)).map reads.member).length := by
      rw [length_map, length_take]
      omega
    have hkept : ((rows.take (size + 1)).map reads.member).take size =
        (front ++ [last]).map reads.member := by
      rw [← map_take, take_take, Nat.min_eq_left (by omega), hfront]
    simp only [hitems, if_true, hkept, map_append, map_cons, map_nil, getLast?_concat]
    rfl
  apply Or.inl
  have hall : rows.take (size + 1) = rows := take_of_length_le (by omega)
  refine ⟨?_, hshort⟩
  rw [hall]
  simp only [length_map, Nat.not_lt.mpr hshort, if_false]

theorem remaining_resume {front rest : List MemberRow} {last : MemberRow}
    (harranged : arranged order group = front ++ last :: rest) (hplain : plainRole last.role) :
    remaining order group (formatCursor (memberRoleRank last.role) last.userID.text) = rest := by
  have hsorted := arranged_sorted order group
  rw [harranged] at hsorted
  have hsame : ∀ row ∈ arranged order group,
      follows order (some ((memberRoleRank last.role : Int), last.userID.text)) row =
        decide (KeysetPaging.Before (ordered order) last row) := by
    intro row _
    rw [rank_eq_iff.mpr hplain, Bool.eq_iff_iff, decide_eq_true_eq]
    exact before_iff.symm
  unfold remaining
  rw [parse_cursor, filter_congr hsame, harranged]
  exact KeysetPaging.filter_before hsorted

theorem mem_remaining {last row : MemberRow} (hrow : row ∈ arranged order group)
    (hpre : KeysetPaging.Before (ordered order) last row) :
    row ∈ remaining order group (formatCursor (memberRoleRank last.role) last.userID.text) := by
  apply mem_filter.mpr
  rw [parse_cursor]
  exact ⟨hrow, follows_of_before (memberRoleRank_le _) hpre⟩

/-- Where the ranks of its role do not agree, a row is behind its own cursor. -/
theorem self_mem_remaining {last : MemberRow} (hlast : last ∈ arranged order group)
    (hplain : ¬ plainRole last.role) :
    last ∈ remaining order group (formatCursor (memberRoleRank last.role) last.userID.text) := by
  have hrank : memberRoleRank last.role < roleOrder last.role := by
    have hle := memberRoleRank_le last.role
    have hne : memberRoleRank last.role ≠ roleOrder last.role := fun heq =>
      hplain (rank_eq_iff.mp heq)
    omega
  apply mem_filter.mpr
  rw [parse_cursor]
  exact ⟨hlast, follows_self hrank⟩

theorem remaining_sublist (order : Collation) (group : Group) (cursor : Text) :
    (remaining order group cursor).Sublist (arranged order group) :=
  filter_sublist

/-- The walk reaches every row that its cursor leaves, whatever the roles. -/
theorem Follows.covers {cursor : Text} {visited : List GroupMember}
    (h : Follows order group uid limit cursor visited) :
    ∀ row ∈ remaining order group cursor, row.userID.text ∈ visited.map GroupMember.id := by
  induction h with
  | last reads hpage hend =>
    intro row hrow
    rcases listMembers_eq limit (listMembers_admits hpage) reads _ with ⟨hall, _⟩ | hsome
    · rw [hpage] at hall
      cases hall
      rw [map_map]
      exact mem_map.mpr ⟨row, hrow, rfl⟩
    obtain ⟨front, last, rest, _, _, _, hmore⟩ := hsome
    rw [hpage] at hmore
    cases hmore
    cases hend
  | more reads hpage hmore _ ih =>
    intro row hrow
    rcases listMembers_eq limit (listMembers_admits hpage) reads _ with ⟨hall, _⟩ | hsome
    · rw [hpage] at hall
      cases hall
      cases hmore
    obtain ⟨front, last, rest, hremaining, _, _, hpage'⟩ := hsome
    rw [hpage] at hpage'
    cases hpage'
    have hsublist := remaining_sublist order group ‹_›
    have hsorted := (arranged_sorted order group).sublist hsublist
    have harranged := hsublist.subset hrow
    rw [hremaining] at hrow hsorted
    obtain ⟨_, hback, _⟩ := pairwise_append.mp hsorted
    rw [map_append, mem_append]
    rcases mem_append.mp hrow with hfront | hlast
    · apply Or.inl
      rw [map_map]
      exact mem_map.mpr ⟨row, mem_append_left _ hfront, rfl⟩
    rcases mem_cons.mp hlast with rfl | hrest
    · apply Or.inl
      rw [map_map]
      exact mem_map.mpr ⟨row, mem_append_right _ (mem_singleton_self _), rfl⟩
    apply Or.inr
    apply ih
    exact mem_remaining harranged ((pairwise_cons.mp hback).1 row hrest)

/-- A row that ends a full page, with others behind it, has a plain role. -/
def PagesEndPlain (limit : Int) (rows : List MemberRow) : Prop :=
  ∀ front last rest, rows = front ++ last :: rest → rest ≠ [] →
    pageLimit limit ∣ front.length + 1 → plainRole last.role

theorem PagesEndPlain.rest {front rest : List MemberRow} {last : MemberRow}
    (hlen : front.length + 1 = pageLimit limit)
    (h : PagesEndPlain limit (front ++ last :: rest)) : PagesEndPlain limit rest := by
  intro front' last' rest' hrest hne hdvd
  apply h (front ++ last :: front') last' rest' ?_ hne ?_
  · rw [hrest, append_assoc, cons_append]
  have hsum : (front ++ last :: front').length + 1 = pageLimit limit + (front'.length + 1) := by
    rw [length_append, length_cons]
    omega
  rw [hsum]
  exact Nat.dvd_add (Nat.dvd_refl _) hdvd

theorem PagesEndPlain.first {front rest : List MemberRow} {last : MemberRow}
    (hlen : front.length + 1 = pageLimit limit) (hrest : rest ≠ [])
    (h : PagesEndPlain limit (front ++ last :: rest)) : plainRole last.role :=
  h front last rest rfl hrest (hlen ▸ Nat.dvd_refl _)

theorem PagesEndPlain.short {rows : List MemberRow} (hshort : rows.length ≤ pageLimit limit) :
    PagesEndPlain limit rows := by
  intro front last rest hrows hne hdvd
  have hlen := congrArg List.length hrows
  have hpos := length_pos_of_ne_nil hne
  rw [length_append, length_cons] at hlen
  have hle := Nat.le_of_dvd (by omega) hdvd
  omega

theorem PagesEndPlain.cons {front rest : List MemberRow} {last : MemberRow}
    (hlen : front.length + 1 = pageLimit limit) (hlast : plainRole last.role)
    (h : PagesEndPlain limit rest) : PagesEndPlain limit (front ++ last :: rest) := by
  intro front' last' rest' hrows hne hdvd
  have hle := Nat.le_of_dvd (by omega) hdvd
  rcases append_eq_append_iff.mp hrows with ⟨middle, hfront, hback⟩ | ⟨middle, hfront, hback⟩
  · cases middle with
    | nil =>
      rw [nil_append] at hback
      cases hback
      exact hlast
    | cons first middle =>
      rw [cons_append] at hback
      obtain ⟨rfl, htail⟩ := List.cons.inj hback
      apply h middle last' rest' htail hne
      have hsum : front'.length + 1 = pageLimit limit + (middle.length + 1) := by
        rw [hfront, length_append, length_cons]
        omega
      rw [hsum] at hdvd
      exact (Nat.dvd_add_right (Nat.dvd_refl _)).mp hdvd
  cases middle with
  | nil =>
    rw [nil_append] at hback
    cases hback
    exact hlast
  | cons first middle =>
    have hshorter := congrArg List.length hfront
    rw [length_append, length_cons] at hshorter
    omega

theorem Follows.plain {cursor : Text} {visited : List GroupMember}
    (h : Follows order group uid limit cursor visited) :
    (visited.map GroupMember.id).Nodup → ∀ done,
      arranged order group = done ++ remaining order group cursor →
      PagesEndPlain limit (remaining order group cursor) := by
  induction h with
  | last reads hpage hend =>
    intro _ done _
    rcases listMembers_eq limit (listMembers_admits hpage) reads _ with ⟨_, hshort⟩ | hsome
    · exact PagesEndPlain.short hshort
    obtain ⟨front, last, rest, _, _, _, hmore⟩ := hsome
    rw [hpage] at hmore
    cases hmore
    cases hend
  | more reads hpage hmore hwalk ih =>
    intro hnodup done harranged
    rcases listMembers_eq limit (listMembers_admits hpage) reads _ with ⟨hall, _⟩ | hsome
    · rw [hpage] at hall
      cases hall
      cases hmore
    obtain ⟨front, last, rest, hremaining, _, hlen, hpage'⟩ := hsome
    rw [hpage] at hpage'
    cases hpage'
    rw [map_append, nodup_append] at hnodup
    obtain ⟨_, hnodup, hdisjoint⟩ := hnodup
    rw [hremaining] at harranged ⊢
    have hplain : plainRole last.role := by
      by_contra hnot
      have hlast : last ∈ arranged order group := by
        rw [harranged]
        exact mem_append_right _ (mem_append_right _ mem_cons_self)
      have hagain := hwalk.covers last (self_mem_remaining hlast hnot)
      refine hdisjoint _ ?_ _ hagain rfl
      rw [map_map]
      exact mem_map.mpr ⟨last, mem_append_right _ (mem_singleton_self _), rfl⟩
    have harranged' : arranged order group = (done ++ front) ++ last :: rest := by
      rw [harranged, append_assoc]
    have hresume := remaining_resume harranged' hplain
    have hrest : PagesEndPlain limit rest := by
      rw [← hresume]
      apply ih hnodup (done ++ front ++ [last])
      rw [hresume, harranged', append_assoc, append_assoc, append_assoc]
      rfl
    exact PagesEndPlain.cons hlen hplain hrest

def GroupMember.key (member : GroupMember) : Text × Text := (member.role, member.id)

def MemberRow.key (row : MemberRow) : Text × Text := (row.role, row.userID.text)

theorem member_key (reads : Reads) (rows : List MemberRow) :
    (rows.map reads.member).map GroupMember.key = rows.map MemberRow.key := by
  rw [map_map]
  rfl

/-- With plain roles at the ends of the pages, a walk visits the rows that its
cursor leaves, in their order. -/
theorem Follows.keys {cursor : Text} {visited : List GroupMember}
    (h : Follows order group uid limit cursor visited) :
    ∀ done, arranged order group = done ++ remaining order group cursor →
      PagesEndPlain limit (remaining order group cursor) →
      visited.map GroupMember.key = (remaining order group cursor).map MemberRow.key := by
  induction h with
  | last reads hpage hend =>
    intro _ _ _
    rcases listMembers_eq limit (listMembers_admits hpage) reads _ with ⟨hall, _⟩ | hsome
    · rw [hpage] at hall
      cases hall
      exact member_key reads _
    obtain ⟨front, last, rest, _, _, _, hmore⟩ := hsome
    rw [hpage] at hmore
    cases hmore
    cases hend
  | more reads hpage hmore _ ih =>
    intro done harranged hplain
    rcases listMembers_eq limit (listMembers_admits hpage) reads _ with ⟨hall, _⟩ | hsome
    · rw [hpage] at hall
      cases hall
      cases hmore
    obtain ⟨front, last, rest, hremaining, hne, hlen, hpage'⟩ := hsome
    rw [hpage] at hpage'
    cases hpage'
    rw [hremaining] at harranged hplain ⊢
    have harranged' : arranged order group = (done ++ front) ++ last :: rest := by
      rw [harranged, append_assoc]
    have hresume := remaining_resume harranged' (hplain.first hlen hne)
    have hrest := ih (done ++ front ++ [last])
    rw [hresume] at hrest
    rw [map_append, member_key, hrest ?_ (hplain.rest hlen), ← map_append, append_assoc]
    · rfl
    rw [harranged', append_assoc, append_assoc, append_assoc]
    rfl

theorem follows_remaining (hadmits : group.admits uid = true) (reads : Reads) (size : Nat) :
    ∀ (cursor : Text) (done : List MemberRow), (remaining order group cursor).length ≤ size →
      arranged order group = done ++ remaining order group cursor →
      PagesEndPlain limit (remaining order group cursor) →
      ∃ visited, Follows order group uid limit cursor visited := by
  induction size with
  | zero =>
    intro cursor done hsize _ _
    rcases listMembers_eq limit hadmits reads cursor with ⟨hall, _⟩ | hsome
    · exact ⟨_, Follows.last reads hall rfl⟩
    obtain ⟨front, last, rest, hremaining, _⟩ := hsome
    rw [hremaining, length_append, length_cons] at hsize
    omega
  | succ size ih =>
    intro cursor done hsize harranged hplain
    rcases listMembers_eq limit hadmits reads cursor with ⟨hall, _⟩ | hsome
    · exact ⟨_, Follows.last reads hall rfl⟩
    obtain ⟨front, last, rest, hremaining, hne, hlen, hpage⟩ := hsome
    rw [hremaining] at harranged hplain hsize
    rw [length_append, length_cons] at hsize
    have harranged' : arranged order group = (done ++ front) ++ last :: rest := by
      rw [harranged, append_assoc]
    have hresume := remaining_resume harranged' (hplain.first hlen hne)
    have hnext := ih (formatCursor (memberRoleRank last.role) last.userID.text)
      (done ++ front ++ [last])
    rw [hresume] at hnext
    obtain ⟨visited, hvisited⟩ := hnext (by omega) (by
      rw [harranged', append_assoc, append_assoc, append_assoc]
      rfl) (hplain.rest hlen)
    exact ⟨_, Follows.more reads hpage rfl hvisited⟩

/-- The order of the list on members: the rank of the role, then the id. -/
def listedBefore (order : Collation) (a b : GroupMember) : Prop :=
  roleOrder a.role < roleOrder b.role ∨
    (roleOrder a.role = roleOrder b.role ∧ order.lt a.id b.id = true)

/-- The walk from the first page ends, and it visits each active member once and
in order. -/
structure ListsOnce (order : Collation) (group : Group) (uid : UserID) (limit : Int) : Prop where
  ends : ∃ visited, Follows order group uid limit [] visited
  once : ∀ visited, Follows order group uid limit [] visited →
    (visited.map GroupMember.id).Perm (group.active.map fun row => row.userID.text)
  inOrder : ∀ visited, Follows order group uid limit [] visited →
    visited.Pairwise (listedBefore order)

theorem active_nodup (group : Group) : (group.active.map fun row => row.userID.text).Nodup := by
  have hrows : group.rows.Pairwise (fun a b => a.userID ≠ b.userID) :=
    pairwise_map.mp group.keyed
  have hactive : group.active.Pairwise (fun a b => a.userID ≠ b.userID) := hrows.filter _
  apply pairwise_map.mpr
  refine hactive.imp ?_
  intro a b hne heq
  exact hne (UserID.ext_text heq)

theorem keys_ordered {visited : List GroupMember} {rows : List MemberRow}
    (hsorted : rows.Pairwise (KeysetPaging.Before (ordered order)))
    (hkeys : visited.map GroupMember.key = rows.map MemberRow.key) :
    visited.Pairwise (listedBefore order) := by
  let keyBefore := fun a b : Text × Text => roleOrder a.1 < roleOrder b.1 ∨
    (roleOrder a.1 = roleOrder b.1 ∧ order.lt a.2 b.2 = true)
  have hrows : (rows.map MemberRow.key).Pairwise keyBefore := by
    apply pairwise_map.mpr
    refine hsorted.imp ?_
    intro a b hpre
    have hfollows := before_iff.mp hpre
    simp only [follows, Bool.or_eq_true, Bool.and_eq_true, decide_eq_true_eq] at hfollows
    rcases hfollows with hlt | ⟨heq, hid⟩
    · exact Or.inl (by exact_mod_cast hlt)
    exact Or.inr ⟨by exact_mod_cast heq.symm, hid⟩
  rw [← hkeys] at hrows
  have hmembers : visited.Pairwise (fun a b => keyBefore a.key b.key) := pairwise_map.mp hrows
  exact hmembers

/-- The member list and its cursors. Following the cursors lists every active
member once and in order exactly when each member that ends a full page, with
others behind it, has a plain role; the two ranks of a role agree exactly when
it is plain; and a cursor that was built is decoded to its rank and id. -/
theorem listMembers_pagination (order : Collation) (group : Group) (uid : UserID) (limit : Int)
    (hadmits : group.admits uid = true) : (ListsOnce order group uid limit ↔
      ∀ front last rest, group.active.insertionSort (ordered order) = front ++ last :: rest →
        rest ≠ [] → pageLimit limit ∣ front.length + 1 → plainRole last.role) ∧
    (∀ role, memberRoleRank role = roleOrder role ↔ plainRole role) ∧ (∀ role (id : UserID),
      parseMemberListCursor (formatCursor (memberRoleRank role) id.text) =
        some ((memberRoleRank role : Int), id.text)) := by
  refine ⟨?_, fun _ => rank_eq_iff, parse_cursor⟩
  have hstart : arranged order group = [] ++ remaining order group [] := by
    rw [remaining_nil, nil_append]
  change _ ↔ PagesEndPlain limit (arranged order group)
  rw [← remaining_nil]
  constructor
  · intro hlists
    obtain ⟨visited, hvisited⟩ := hlists.ends
    have hnodup := (hlists.once visited hvisited).nodup_iff.mpr (active_nodup group)
    exact hvisited.plain hnodup [] hstart
  intro hplain
  have hperm := perm_insertionSort (ordered order) group.active
  constructor
  · exact follows_remaining hadmits ⟨0, none⟩ _ [] [] le_rfl hstart hplain
  · intro visited hvisited
    have hkeys := hvisited.keys [] hstart hplain
    have hids := congrArg (List.map Prod.snd) hkeys
    rw [map_map, map_map, remaining_nil] at hids
    have hlisted : visited.map GroupMember.id =
        (arranged order group).map fun row => row.userID.text := hids
    rw [hlisted]
    exact hperm.map _
  intro visited hvisited
  have hkeys := hvisited.keys [] hstart hplain
  rw [remaining_nil] at hkeys
  exact keys_ordered (arranged_sorted order group) hkeys

/-- The order of the code points. -/
def codeLe : Text → Text → Bool
  | [], _ => true
  | _ :: _, [] => false
  | a :: s, b :: t => a.toNat < b.toNat || (a.toNat = b.toNat && codeLe s t)

theorem codeLe_total (s t : Text) : codeLe s t = true ∨ codeLe t s = true := by
  induction s generalizing t with
  | nil => exact Or.inl rfl
  | cons a s ih =>
    cases t with
    | nil => exact Or.inr rfl
    | cons b t =>
      simp only [codeLe, Bool.or_eq_true, Bool.and_eq_true, decide_eq_true_eq]
      rcases Nat.lt_trichotomy a.toNat b.toNat with hlt | heq | hgt
      · exact Or.inl (Or.inl hlt)
      · rcases ih t with hst | hts
        · exact Or.inl (Or.inr ⟨heq, hst⟩)
        exact Or.inr (Or.inr ⟨heq.symm, hts⟩)
      exact Or.inr (Or.inl hgt)

theorem codeLe_trans (s t u : Text) (hst : codeLe s t = true) (htu : codeLe t u = true) :
    codeLe s u = true := by
  induction s generalizing t u with
  | nil => rfl
  | cons a s ih =>
    cases t with
    | nil => cases hst
    | cons b t =>
      cases u with
      | nil => cases htu
      | cons c u =>
        simp only [codeLe, Bool.or_eq_true, Bool.and_eq_true, decide_eq_true_eq] at *
        rcases hst with hab | ⟨hab, hst⟩
        · rcases htu with hbc | ⟨hbc, _⟩ <;> exact Or.inl (by omega)
        rcases htu with hbc | ⟨hbc, htu⟩
        · exact Or.inl (by omega)
        exact Or.inr ⟨by omega, ih t u hst htu⟩

theorem codeLe_antisymm (s t : Text) (hst : codeLe s t = true) (hts : codeLe t s = true) :
    s = t := by
  induction s generalizing t with
  | nil =>
    cases t with
    | nil => rfl
    | cons b t => cases hts
  | cons a s ih =>
    cases t with
    | nil => cases hst
    | cons b t =>
      simp only [codeLe, Bool.or_eq_true, Bool.and_eq_true, decide_eq_true_eq] at *
      rcases hst with hab | ⟨hab, hst⟩
      · omega
      rcases hts with hba | ⟨_, hts⟩
      · omega
      rw [ih t hst hts, Char.toNat_inj.mp hab]

def codePoints : Collation := ⟨codeLe, codeLe_total, codeLe_trans, codeLe_antisymm⟩

def zeroID : UserID := ⟨"00000000-0000-0000-0000-000000000000".toList, by decide, by decide⟩

def firstID : UserID := ⟨"00000000-0000-0000-0000-000000000001".toList, by decide, by decide⟩

def secondID : UserID := ⟨"00000000-0000-0000-0000-000000000002".toList, by decide, by decide⟩

def rowOf (id : UserID) (role : Text) : MemberRow where
  userID := id
  userNickname := none
  userAvatar := none
  userStatus := none
  nickname := none
  role := role
  mutedUntil := none
  joinedAt := 0

/-- An owner, a member whose role was stored with this text, and a member. -/
def threeMembers (role : Text) : Group where
  status := "active".toList
  rows := [rowOf zeroID "owner".toList, rowOf firstID role, rowOf secondID "member".toList]
  keyed := by
    have hids : [zeroID, firstID, secondID].Nodup := by decide
    exact hids

theorem listMembers_pagination_three :
    ListsOnce codePoints (threeMembers "admin".toList) zeroID 500 := by
  apply (listMembers_pagination codePoints (threeMembers "admin".toList) zeroID 500 (by decide)).1.mpr
  apply PagesEndPlain.short
  decide

/-- With the role `Admin` in the row, pages of two list that member twice. -/
theorem admin_spelling_listed_twice : memberRoleRank "Admin".toList ≠ roleOrder "Admin".toList ∧
      ∃ visited, Follows codePoints (threeMembers "Admin".toList) zeroID 2 [] visited ∧
        visited.map GroupMember.id = [zeroID.text, firstID.text, firstID.text, secondID.text] := by
  let reads : Reads := ⟨0, none⟩
  let owner := reads.member (rowOf zeroID "owner".toList)
  let admin := reads.member (rowOf firstID "Admin".toList)
  let member := reads.member (rowOf secondID "member".toList)
  let cursor := formatCursor 1 firstID.text
  have hfirst : listMembers codePoints (threeMembers "Admin".toList) reads zeroID [] 2 =
      .ok ⟨[owner, admin], true, cursor⟩ := by decide +kernel
  have hsecond : listMembers codePoints (threeMembers "Admin".toList) reads zeroID cursor 2 =
      .ok ⟨[admin, member], false, []⟩ := by decide +kernel
  constructor
  · decide
  exact ⟨_, Follows.more reads hfirst rfl (Follows.last reads hsecond rfl), rfl⟩

end ImApp.MemberList
