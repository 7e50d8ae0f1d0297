import Mathlib.Data.List.Nodup
import Mathlib.Data.List.Count

/-!
Tables with a unique key, as lists of rows. An update changes the rows that meet
a condition and keeps their keys, a delete drops them, and an insert leaves a
row with the same key alone. The counting rules say how the number of rows with
a property moves, which is what a stored counter has to follow.
-/

variable {κ ρ : Type*}

structure KeyedTable (key : ρ → κ) where
  rows : List ρ
  unique : (rows.map key).Nodup

namespace KeyedTable

open List Function Bool

variable {key : ρ → κ}

/-- An operation on one row that keeps its key. -/
structure Edit (key : ρ → κ) where
  apply : ρ → ρ
  key_apply : ∀ r, key (apply r) = key r

def empty : KeyedTable key := ⟨[], nodup_nil⟩

variable (t : KeyedTable key)

def size : ℕ := t.rows.length

/-- The number of rows with a property. -/
def count (p : ρ → Bool) : ℕ := t.rows.countP p

def update (p : ρ → Bool) (edit : Edit key) : KeyedTable key where
  rows := t.rows.map fun r => if p r then edit.apply r else r
  unique := by
    have hkeys : (t.rows.map fun r => if p r then edit.apply r else r).map key =
        t.rows.map key := by
      rw [map_map]
      apply map_congr_left
      intro r _
      simp only [comp_apply]
      split
      · exact edit.key_apply r
      rfl
    rw [hkeys]
    exact t.unique

def delete (p : ρ → Bool) : KeyedTable key where
  rows := t.rows.filter fun r => !p r
  unique := t.unique.sublist (filter_sublist.map key)

/-- An update that may change keys: it fails where two rows would share one. -/
def change [DecidableEq κ] (f : ρ → ρ) : Option (KeyedTable key) :=
  if h : ((t.rows.map f).map key).Nodup then some ⟨t.rows.map f, h⟩ else none

/-- Appends a row unless its key is taken. -/
def insert [DecidableEq κ] (r : ρ) : KeyedTable key where
  rows := if key r ∈ t.rows.map key then t.rows else t.rows ++ [r]
  unique := by
    split
    · exact t.unique
    rename_i hfresh
    rw [map_append]
    apply List.Nodup.append t.unique (nodup_singleton _)
    intro k hk hr
    obtain rfl := mem_singleton.mp hr
    exact hfresh hk

def insertAll [DecidableEq κ] (rows : List ρ) : KeyedTable key :=
  rows.foldl (fun table r => table.insert r) t

/-- The row of a key has a property. -/
def had [DecidableEq κ] (p : ρ → Bool) (k : κ) : Bool :=
  t.rows.any fun r => key r = k && p r

variable {t} {p q : ρ → Bool} {edit : Edit key} {r : ρ}

theorem mem_update (h : r ∈ (t.update p edit).rows) :
    (∃ before ∈ t.rows, p before = true ∧ r = edit.apply before) ∨ (r ∈ t.rows ∧ p r = false) := by
  obtain ⟨before, hmem, rfl⟩ := mem_map.mp h
  cases hp : p before with
  | true => exact .inl ⟨before, hmem, hp, if_pos rfl⟩
  | false =>
    simp only [false_eq_true, if_false]
    exact .inr ⟨hmem, hp⟩

theorem mem_update_of_selected (hmem : r ∈ t.rows) (hp : p r = true) :
    edit.apply r ∈ (t.update p edit).rows :=
  mem_map.mpr ⟨r, hmem, if_pos hp⟩

theorem mem_update_of_kept (hmem : r ∈ t.rows) (hp : p r = false) : r ∈ (t.update p edit).rows :=
  mem_map.mpr ⟨r, hmem, if_neg (by rw [hp]; exact false_ne_true)⟩

theorem size_update : (t.update p edit).size = t.size := length_map ..

theorem map_update {β : Type*} {f : ρ → β} (hf : ∀ r, f (edit.apply r) = f r) :
    (t.update p edit).rows.map f = t.rows.map f := by
  change (t.rows.map fun r => if p r then edit.apply r else r).map f = _
  rw [map_map]
  apply map_congr_left
  intro r _
  simp only [comp_apply]
  split
  · exact hf r
  rfl

theorem change_some [DecidableEq κ] {f : ρ → ρ} {after : KeyedTable key} (h : t.change f = some after) :
    after.rows = t.rows.map f := by
  unfold change at h
  split at h
  · exact (congrArg rows (Option.some.inj h)).symm
  cases h

theorem mem_insert_of_mem [DecidableEq κ] {new : ρ} (h : r ∈ t.rows) : r ∈ (t.insert new).rows := by
  unfold insert
  dsimp only
  split
  · exact h
  exact mem_append_left _ h

theorem mem_insert_self [DecidableEq κ] (hfresh : key r ∉ t.rows.map key) : r ∈ (t.insert r).rows := by
  unfold insert
  dsimp only
  rw [if_neg hfresh]
  exact mem_append_right _ mem_cons_self

theorem eq_of_key {other : ρ} (hr : r ∈ t.rows) (hother : other ∈ t.rows) (hkey : key r = key other) :
    r = other :=
  inj_on_of_nodup_map t.unique hr hother hkey

theorem mem_insert [DecidableEq κ] {new : ρ} (h : r ∈ (t.insert new).rows) :
    r ∈ t.rows ∨ r = new := by
  simp only [insert] at h
  split at h
  · exact .inl h
  rcases mem_append.mp h with hold | hnew
  · exact .inl hold
  exact .inr (mem_singleton.mp hnew)

theorem size_insert_le [DecidableEq κ] {new : ρ} : (t.insert new).size ≤ t.size + 1 := by
  unfold insert size
  dsimp only
  split
  · exact Nat.le_succ _
  rw [length_append]
  exact Nat.le_refl _

theorem size_insertAll_le [DecidableEq κ] {rows : List ρ} :
    (t.insertAll rows).size ≤ t.size + rows.length := by
  induction rows generalizing t with
  | nil => exact Nat.le_refl _
  | cons new rest ih =>
    have hrest := ih (t := t.insert new)
    have hnew : (t.insert new).size ≤ t.size + 1 := size_insert_le
    rw [length_cons]
    change ((t.insert new).insertAll rest).size ≤ t.size + (rest.length + 1)
    omega

theorem size_delete_le : (t.delete p).size ≤ t.size := length_filter_le ..

theorem mem_insertAll [DecidableEq κ] {rows : List ρ} (h : r ∈ (t.insertAll rows).rows) :
    r ∈ t.rows ∨ r ∈ rows := by
  induction rows generalizing t with
  | nil => exact .inl h
  | cons new rest ih =>
    rcases ih h with hins | hrest
    · rcases mem_insert hins with hold | rfl
      · exact .inl hold
      exact .inr mem_cons_self
    exact .inr (mem_cons_of_mem _ hrest)

theorem mem_insertAll_of_mem [DecidableEq κ] {rows : List ρ} (h : r ∈ t.rows) :
    r ∈ (t.insertAll rows).rows := by
  induction rows generalizing t with
  | nil => exact h
  | cons new rest ih => exact ih (mem_insert_of_mem h)

theorem eq_of_rows {s t : KeyedTable key} (h : s.rows = t.rows) : s = t := by
  cases s
  cases t
  subst h
  rfl

theorem update_of_none (h : ∀ r ∈ t.rows, p r = false) : t.update p edit = t := by
  apply eq_of_rows
  have hsame : ∀ r ∈ t.rows, (if p r then edit.apply r else r) = r := by
    intro r hr
    rw [h r hr]
    rfl
  exact (map_congr_left hsame).trans (map_id' _)

theorem delete_of_count_zero (h : t.count p = 0) : t.delete p = t := by
  apply eq_of_rows
  apply filter_eq_self.mpr
  intro r hr
  rw [not_eq_true', eq_false_iff]
  exact countP_eq_zero.mp h r hr

theorem had_key [DecidableEq κ] (hmem : r ∈ t.rows) : t.had p (key r) = p r := by
  rw [Bool.eq_iff_iff]
  simp only [had, any_eq_true, and_eq_true, decide_eq_true_eq]
  constructor
  · rintro ⟨other, hother, hkey, hp⟩
    obtain rfl := inj_on_of_nodup_map t.unique hother hmem hkey
    exact hp
  intro hp
  exact ⟨r, hmem, rfl, hp⟩

theorem count_le_one {k : κ} (hkey : ∀ r, p r = true → key r = k) : t.count p ≤ 1 := by
  have hunique : ((t.rows.filter p).map key).Nodup :=
    t.unique.sublist (filter_sublist.map key)
  have hkeys : ∀ r ∈ t.rows.filter p, key r = k :=
    fun r hr => hkey r (mem_filter.mp hr).2
  rw [count, countP_eq_length_filter]
  generalize t.rows.filter p = selected at hunique hkeys ⊢
  rcases selected with _ | ⟨first, _ | ⟨second, rest⟩⟩
  · exact Nat.zero_le _
  · exact Nat.le_refl _
  have hfirst := hkeys first mem_cons_self
  have hsecond := hkeys second (mem_cons_of_mem _ mem_cons_self)
  simp [hfirst, hsecond] at hunique

/-- The rows with a property, before and after: the selected ones are exchanged. -/
theorem count_update (t : KeyedTable key) (p q : ρ → Bool) (edit : Edit key) :
    (t.update p edit).count q + t.count (fun r => p r && q r) =
      t.count q + t.count (fun r => p r && q (edit.apply r)) := by
  simp only [count, update]
  induction t.rows with
  | nil => rfl
  | cons r rest ih =>
    simp only [map_cons, countP_cons]
    cases p r with
    | true => simp only [if_true, Bool.true_and]; omega
    | false => simp only [Bool.false_eq_true, if_false, Bool.false_and]; omega

theorem count_zero (h : ∀ r ∈ t.rows, q r = false) : t.count q = 0 := by
  apply countP_eq_zero.mpr
  intro r hr
  rw [h r hr]
  exact false_ne_true

theorem count_congr (h : ∀ r ∈ t.rows, p r = q r) : t.count p = t.count q := by
  apply countP_congr
  intro r hr
  rw [h r hr]

theorem count_update_unaffected (h : ∀ r, p r = true → q (edit.apply r) = q r) :
    (t.update p edit).count q = t.count q := by
  have hexchange := t.count_update p q edit
  have hsame : t.count (fun r => p r && q (edit.apply r)) = t.count (fun r => p r && q r) := by
    apply count_congr
    intro r _
    cases hp : p r with
    | true => rw [h r hp]
    | false => rfl
  omega

/-- An update that leaves the settled rows alone counts each newly settled row
once. -/
theorem count_update_settled [DecidableEq κ] {settled : ρ → Bool}
    (hopen : ∀ r ∈ t.rows, p r = true → settled r = false)
    (hset : ∀ r, q r = true → settled r = true) : (t.update p edit).count q =
      t.count q + (t.update p edit).count fun r => q r && !t.had settled (key r) := by
  have hrows : ∀ rows : List ρ, (∀ r ∈ rows, r ∈ t.rows) →
      (rows.map fun r => if p r then edit.apply r else r).countP q = rows.countP q +
        (rows.map fun r => if p r then edit.apply r else r).countP
          fun r => q r && !t.had settled (key r) := by
    intro rows
    induction rows with
    | nil => exact fun _ => rfl
    | cons r rest ih =>
      intro hmem
      have hr := hmem r mem_cons_self
      have hrest := ih fun r' hr' => hmem r' (mem_cons_of_mem _ hr')
      simp only [map_cons, countP_cons]
      have hpre : settled r = false → q r = false := by
        intro hnot
        cases hq : q r with
        | false => rfl
        | true => rw [hset r hq] at hnot; exact hnot
      cases hp : p r with
      | true =>
        have hnot := hopen r hr hp
        simp only [if_true, edit.key_apply, had_key hr, hnot, hpre hnot, Bool.not_false,
          Bool.and_true, Bool.false_eq_true, if_false]
        omega
      | false =>
        simp only [false_eq_true, if_false, had_key hr]
        cases hq : q r with
        | true =>
          simp only [hset r hq, Bool.not_true, Bool.and_false, Bool.false_eq_true, if_false,
            if_true]
          omega
        | false =>
          simp only [Bool.false_and, Bool.false_eq_true, if_false]
          omega
  exact hrows t.rows fun _ h => h

end KeyedTable
