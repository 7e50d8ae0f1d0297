import ImApp.Library.JsonText
import Mathlib.Algebra.GroupWithZero.Nat
import Mathlib.Algebra.Order.BigOperators.Group.List
import Mathlib.Algebra.Order.Group.Nat
import Mathlib.Data.List.Sort

/-!
The rows of the media cache, and the rows that are evicted when one is added.
-/

namespace ImApp.MediaCache

open List
open JsonText (Text)

def maxFileBytes : Nat := 4 * 1024 * 1024

def maxTotalBytes : Nat := 500 * 1024 * 1024

def mediaCacheAcceptsSize (bytes : Nat) : Bool := 0 < bytes && bytes ≤ maxFileBytes

structure Row where
  path : Text
  rel : Text
  bytes : Nat
  usedAt : Int
  deriving DecidableEq

/-- Rows in the order in which their keys were first set. -/
abbrev Rows := List (Text × Row)

namespace Rows

def set (rows : Rows) (key : Text) (row : Row) : Rows :=
  if rows.any fun entry => entry.1 = key then
    rows.map fun entry => if entry.1 = key then (key, row) else entry
  else rows ++ [(key, row)]

def delete (rows : Rows) (key : Text) : Rows := rows.filter fun entry => entry.1 ≠ key

/-- The path of a row, empty where there is none. -/
def path (rows : Rows) (key : Text) : Text := ((rows.lookup key).map Row.path).getD []

def rel (rows : Rows) (key : Text) : Text := ((rows.lookup key).map Row.rel).getD []

variable {rows : Rows} {key other : Text} {row : Row}

theorem lookup_append_of_fresh (hfresh : ∀ entry ∈ rows, entry.1 ≠ key) :
    (rows ++ [(key, row)]).lookup other = if other = key then some row else rows.lookup other := by
  induction rows with
  | nil =>
    by_cases hother : other = key
    · simp [hother]
    have hne : (other == key) = false := beq_false_of_ne hother
    simp [lookup_cons, hne, hother]
  | cons entry rest ih =>
    have hentry := hfresh entry mem_cons_self
    have hrest := ih fun e he => hfresh e (mem_cons_of_mem _ he)
    rw [cons_append, lookup_cons, hrest, lookup_cons]
    by_cases hhead : other = entry.1
    · simp [hhead, hentry]
    have hne : (other == entry.1) = false := beq_false_of_ne hhead
    simp [hne]

theorem lookup_replace : (rows.map fun entry => if entry.1 = key then (key, row) else entry).lookup
    other = if other = key ∧ (rows.any fun entry => entry.1 = key) = true then some row
      else rows.lookup other := by
  induction rows with
  | nil => simp
  | cons entry rest ih =>
    rw [map_cons, lookup_cons, ih, lookup_cons]
    by_cases hkey : entry.1 = key
    · by_cases hother : other = key
      · simp [hkey, hother]
      have hne : (other == key) = false := beq_false_of_ne hother
      simp [hkey, hother, hne]
    by_cases hother : other = key
    · have hne : (other == entry.1) = false :=
        beq_false_of_ne fun heq => hkey (heq.symm.trans hother)
      rw [any_cons, decide_eq_false hkey, Bool.false_or, if_neg hkey, hne]
    simp [hkey, hother]

@[simp] theorem lookup_set : (rows.set key row).lookup other =
    if other = key then some row else rows.lookup other := by
  unfold set
  split
  case isTrue hany =>
    rw [lookup_replace]
    simp [hany]
  case isFalse hnone =>
    apply lookup_append_of_fresh
    intro entry hentry hkey
    exact hnone (any_eq_true.mpr ⟨entry, hentry, decide_eq_true hkey⟩)

@[simp] theorem lookup_delete : (rows.delete key).lookup other =
    if other = key then none else rows.lookup other := by
  unfold delete
  induction rows with
  | nil => simp
  | cons entry rest ih =>
    by_cases hkey : entry.1 = key
    · rw [filter_cons_of_neg (by simp [hkey]), ih, lookup_cons]
      by_cases hother : other = key
      · simp [hother]
      have hne : (other == entry.1) = false :=
        beq_false_of_ne fun heq => hother (heq.trans hkey)
      simp [hother, hne]
    rw [filter_cons_of_pos (by simp [hkey]), lookup_cons, ih, lookup_cons]
    by_cases hother : other = key
    · have hne : (other == entry.1) = false :=
        beq_false_of_ne fun heq => hkey (heq.symm.trans hother)
      simp [hother, hother ▸ hne]
    simp [hother]

@[simp] theorem path_set : (rows.set key row).path other =
    if other = key then row.path else rows.path other := by
  unfold path
  rw [lookup_set]
  split <;> rfl

@[simp] theorem path_delete : (rows.delete key).path other =
    if other = key then [] else rows.path other := by
  unfold path
  rw [lookup_delete]
  split <;> rfl

theorem mem_of_lookup (h : rows.lookup key = some row) : (key, row) ∈ rows := by
  induction rows with
  | nil => cases h
  | cons entry rest ih =>
    rw [lookup_cons] at h
    by_cases hkey : key = entry.1
    · rw [hkey, beq_self_eq_true] at h
      cases h
      rw [hkey]
      exact mem_cons_self
    rw [beq_false_of_ne hkey] at h
    exact mem_cons_of_mem _ (ih h)

theorem mem_set {entry : Text × Row} (h : entry ∈ rows.set key row) :
    entry = (key, row) ∨ (entry ∈ rows ∧ entry.1 ≠ key) := by
  unfold set at h
  split at h
  · obtain ⟨old, hold, rfl⟩ := mem_map.mp h
    by_cases hkey : old.1 = key
    · simp [hkey]
    simp [hkey, hold]
  rename_i hnone
  rcases mem_append.mp h with hold | hnew
  · refine .inr ⟨hold, fun hkey => hnone ?_⟩
    exact any_eq_true.mpr ⟨entry, hold, decide_eq_true hkey⟩
  exact .inl (mem_singleton.mp hnew)

theorem mem_delete {entry : Text × Row} :
    entry ∈ rows.delete key ↔ entry ∈ rows ∧ entry.1 ≠ key := by
  simp [delete]

def keys (rows : Rows) : List Text := rows.map Prod.fst

theorem keys_set (h : rows.keys.Nodup) : (rows.set key row).keys.Nodup := by
  unfold set
  split
  · have hkeys : (rows.map fun entry => if entry.1 = key then (key, row) else entry).map
        Prod.fst = rows.map Prod.fst := by
      rw [map_map]
      apply map_congr_left
      intro entry _
      by_cases hkey : entry.1 = key <;> simp [hkey]
    unfold keys
    rw [hkeys]
    exact h
  rename_i hnone
  unfold keys
  rw [map_append, nodup_append']
  refine ⟨h, nodup_singleton _, ?_⟩
  intro other hother hnew
  obtain ⟨entry, hentry, rfl⟩ := mem_map.mp hother
  refine hnone (any_eq_true.mpr ⟨entry, hentry, ?_⟩)
  exact decide_eq_true (mem_singleton.mp hnew)

theorem keys_delete (h : rows.keys.Nodup) : (rows.delete key).keys.Nodup :=
  h.sublist (filter_sublist.map _)

end Rows

/-- The keys dropped from the oldest on until the total is within the target. -/
def dropOldest (target : Nat) : Nat → Rows → List Text
  | _, [] => []
  | total, entry :: rest =>
    if total ≤ target then [] else entry.1 :: dropOldest target (total - entry.2.bytes) rest

def totalBytes (rows : Rows) : Nat := (rows.map fun entry => entry.2.bytes).sum

def oldestFirst (rows : Rows) : Rows := rows.insertionSort fun a b => a.2.usedAt ≤ b.2.usedAt

/-- Evictions go down to four fifths of the budget. -/
def evictionTarget : Nat := maxTotalBytes * 8 / 10

def pickCacheEvictions (rows : Rows) (incomingBytes : Nat) : List Text :=
  let total := totalBytes rows + incomingBytes
  if total ≤ maxTotalBytes then [] else dropOldest evictionTarget total (oldestFirst rows)

theorem oldestFirst_perm (rows : Rows) : (oldestFirst rows).Perm rows :=
  perm_insertionSort _ rows

@[simp] theorem totalBytes_cons (entry : Text × Row) (rows : Rows) :
    totalBytes (entry :: rows) = entry.2.bytes + totalBytes rows := sum_cons

theorem totalBytes_append (rows rows' : Rows) :
    totalBytes (rows ++ rows') = totalBytes rows + totalBytes rows' := by
  simp [totalBytes]

theorem totalBytes_perm {rows rows' : Rows} (h : rows.Perm rows') :
    totalBytes rows = totalBytes rows' := (h.map _).sum_eq

theorem totalBytes_sublist {rows rows' : Rows} (h : rows.Sublist rows') :
    totalBytes rows ≤ totalBytes rows' := (h.map _).sum_le_sum (fun _ _ => Nat.zero_le _)

theorem totalBytes_set {rows : Rows} {key : Text} {row : Row} (h : rows.keys.Nodup) :
    totalBytes (rows.set key row) ≤ totalBytes rows + row.bytes := by
  unfold Rows.set
  split
  · rename_i hany
    clear hany
    induction rows with
    | nil => exact Nat.zero_le _
    | cons entry rest ih =>
      obtain ⟨hfresh, hrest⟩ := nodup_cons.mp h
      rw [map_cons, totalBytes_cons, totalBytes_cons]
      by_cases hkey : entry.1 = key
      · have hsame : (rest.map fun other => if other.1 = key then (key, row) else other) =
            rest := by
          rw [map_congr_left (g := id), List.map_id]
          intro other hother
          apply if_neg
          intro hsame
          exact hfresh (mem_map.mpr ⟨other, hother, hsame.trans hkey.symm⟩)
        rw [hsame, if_pos hkey]
        change row.bytes + totalBytes rest ≤ entry.2.bytes + totalBytes rest + row.bytes
        omega
      rw [if_neg hkey]
      have hle := ih hrest
      omega
  rw [totalBytes_append]
  simp [totalBytes]

/-- The oldest rows are dropped, and the others are within the target with what
comes in. -/
theorem dropOldest_eq (target incoming : Nat) (rows : Rows) :
    ∃ dropped kept, rows = dropped ++ kept ∧
      dropOldest target (totalBytes rows + incoming) rows = dropped.map Prod.fst ∧
      (kept = [] ∨ totalBytes kept + incoming ≤ target) := by
  induction rows with
  | nil => exact ⟨[], [], rfl, rfl, .inl rfl⟩
  | cons entry rest ih =>
    by_cases hwithin : totalBytes (entry :: rest) + incoming ≤ target
    · refine ⟨[], entry :: rest, rfl, ?_, .inr hwithin⟩
      rw [dropOldest, if_pos hwithin]
      rfl
    obtain ⟨dropped, kept, hrest, hdropped, hkept⟩ := ih
    refine ⟨entry :: dropped, kept, by rw [hrest]; rfl, ?_, hkept⟩
    have htotal : totalBytes (entry :: rest) + incoming - entry.2.bytes =
        totalBytes rest + incoming := by
      rw [totalBytes_cons]
      omega
    rw [dropOldest, if_neg hwithin, htotal, hdropped]
    rfl

/-- The row of a key is dropped when the budget is exceeded and the rows that are not
older than it are above the target. -/
def Dropped (rows : Rows) (incoming : Nat) (key : Text) : Prop :=
  maxTotalBytes < totalBytes rows + incoming ∧
    evictionTarget < totalBytes ((oldestFirst rows).dropWhile fun entry => entry.1 ≠ key) + incoming

instance (rows : Rows) (incoming : Nat) (key : Text) : Decidable (Dropped rows incoming key) :=
  inferInstanceAs (Decidable (_ ∧ _))

theorem mem_dropOldest {target incoming : Nat} {rows : Rows} {key : Text}
    (hkey : key ∈ rows.map Prod.fst) : key ∈ dropOldest target (totalBytes rows + incoming) rows ↔
      target < totalBytes (rows.dropWhile fun entry => entry.1 ≠ key) + incoming := by
  induction rows with
  | nil => cases hkey
  | cons entry rest ih =>
    have htotal : totalBytes (entry :: rest) + incoming - entry.2.bytes =
        totalBytes rest + incoming := by
      rw [totalBytes_cons]
      omega
    rw [dropOldest, htotal]
    by_cases hhead : entry.1 = key
    · rw [dropWhile_cons_of_neg (by simp [hhead])]
      split
      case isTrue hwithin =>
        simp only [not_mem_nil, false_iff, not_lt]
        exact hwithin
      case isFalse hover =>
        rw [hhead]
        simp only [mem_cons_self, true_iff]
        exact not_le.mp hover
    have hrest : key ∈ rest.map Prod.fst :=
      (mem_cons.mp hkey).resolve_left (Ne.symm hhead)
    rw [dropWhile_cons_of_pos (by simp [hhead])]
    split
    case isTrue hwithin =>
      have hsub : totalBytes (rest.dropWhile fun entry => entry.1 ≠ key) ≤
          totalBytes (entry :: rest) :=
        totalBytes_sublist ((dropWhile_sublist _).trans (sublist_cons_self _ _))
      simp only [not_mem_nil, false_iff, not_lt]
      omega
    case isFalse =>
      rw [mem_cons, ih hrest]
      simp [Ne.symm hhead]

theorem mem_pickCacheEvictions {rows : Rows} {incoming : Nat} {key : Text}
    (hkey : key ∈ rows.map Prod.fst) :
    key ∈ pickCacheEvictions rows incoming ↔ Dropped rows incoming key := by
  have hsame := totalBytes_perm (oldestFirst_perm rows)
  have hsorted : key ∈ (oldestFirst rows).map Prod.fst :=
    ((oldestFirst_perm rows).map Prod.fst).mem_iff.mpr hkey
  unfold pickCacheEvictions Dropped
  simp only []
  split
  case isTrue hwithin => simp [not_lt.mpr hwithin]
  case isFalse hover =>
    rw [← hsame, mem_dropOldest hsorted, hsame]
    simp [not_le.mp hover]

theorem totalBytes_kept {rows : Rows} {incoming : Nat} (hnodup : (rows.map Prod.fst).Nodup)
    (hincoming : incoming ≤ maxTotalBytes) :
    totalBytes (rows.filter fun entry => entry.1 ∉ pickCacheEvictions rows incoming) + incoming ≤
      maxTotalBytes := by
  by_cases hwithin : totalBytes rows + incoming ≤ maxTotalBytes
  · have hnone : pickCacheEvictions rows incoming = [] := by
      simp [pickCacheEvictions, hwithin]
    rw [hnone]
    have hsub : totalBytes (rows.filter fun entry => entry.1 ∉ ([] : List Text)) ≤
        totalBytes rows := totalBytes_sublist filter_sublist
    omega
  obtain ⟨dropped, kept, hsplit, hdropped, hkept⟩ :=
    dropOldest_eq evictionTarget incoming (oldestFirst rows)
  have hsame := totalBytes_perm (oldestFirst_perm rows)
  have hpicked : pickCacheEvictions rows incoming = dropped.map Prod.fst := by
    rw [← hdropped, hsame]
    simp [pickCacheEvictions, hwithin]
  have hkeys : (dropped ++ kept).map Prod.fst |>.Nodup := by
    rw [← hsplit]
    exact ((oldestFirst_perm rows).map Prod.fst).nodup_iff.mpr hnodup
  rw [map_append] at hkeys
  have hfiltered : (dropped ++ kept).filter (fun entry => entry.1 ∉ dropped.map Prod.fst) =
      kept := by
    rw [filter_append, filter_eq_nil_iff.mpr, filter_eq_self.mpr, nil_append]
    · intro entry hentry
      have hfresh := (nodup_append'.mp hkeys).2.2
      exact decide_eq_true fun hmem => hfresh hmem (mem_map_of_mem hentry)
    intro entry hentry
    simpa using mem_map_of_mem (f := Prod.fst) hentry
  have hperm : (rows.filter fun entry => entry.1 ∉ dropped.map Prod.fst).Perm kept := by
    rw [← hfiltered, ← hsplit]
    exact (oldestFirst_perm rows).symm.filter _
  rw [hpicked, totalBytes_perm hperm]
  rcases hkept with rfl | hkept
  · change 0 + incoming ≤ maxTotalBytes
    omega
  have htgt : evictionTarget ≤ maxTotalBytes := by decide
  omega

end ImApp.MediaCache
