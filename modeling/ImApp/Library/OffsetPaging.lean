import Mathlib.Data.List.Sort

/-!
Reading a table page by page with an offset. The server may arrange the rows anew for
each page, in any order that its `ORDER BY` allows. Where that order separates the rows
there is one arrangement only, and the pages together hold every row once.
-/

namespace OffsetPaging

open List

variable {α σ : Type*}

/-- `LIMIT limit OFFSET offset` of arranged rows. -/
def page (arranged : List α) (limit offset : ℕ) : List α := (arranged.drop offset).take limit

/-- Reads pages until one is empty or short and hands every row to `keep`, which may
fail. No result at all stands for a loop that is out of fuel. -/
def readAll (select : ℕ → List α) (limit : ℕ) (keep : σ → α → Option σ) : ℕ → ℕ → σ → Option (Option σ)
  | 0, _, _ => none
  | fuel + 1, offset, kept => let rows := select offset
    if rows.isEmpty then some (some kept)
    else
      match rows.foldlM keep kept with
      | none => some none
      | some kept =>
        if rows.length < limit then some (some kept)
        else readAll select limit keep fuel (offset + rows.length) kept

/-- The pages a server may give for rows in the order `le`. -/
def Answers (le : α → α → Prop) (rows : List α) (limit : ℕ) (select : ℕ → List α) : Prop :=
  ∀ offset, ∃ arranged, arranged.Perm rows ∧ arranged.Pairwise le ∧
    select offset = page arranged limit offset

variable {le : α → α → Prop} {rows arranged : List α} {limit : ℕ} {select : ℕ → List α}
  {keep : σ → α → Option σ}

theorem page_append (offset : ℕ) :
    page arranged limit offset ++ arranged.drop (offset + (page arranged limit offset).length) =
      arranged.drop offset := by
  have hlen : (page arranged limit offset).length = min limit (arranged.drop offset).length :=
    length_take
  rw [hlen, ← drop_drop, page]
  by_cases hshort : limit ≤ (arranged.drop offset).length
  · rw [Nat.min_eq_left hshort, take_append_drop]
  have hall : (arranged.drop offset).length ≤ limit := by omega
  rw [Nat.min_eq_right hall, take_of_length_le hall, drop_length, append_nil]

/-- With fuel for the rows that are left, the pages hand on exactly these rows. -/
theorem readAll_page (hlimit : 0 < limit) (hselect : ∀ offset, select offset = page arranged limit offset)
    (fuel offset : ℕ) (kept : σ) (hoffset : offset ≤ arranged.length)
    (hfuel : arranged.length < fuel + offset) :
    readAll select limit keep fuel offset kept = some ((arranged.drop offset).foldlM keep kept) := by
  induction fuel generalizing offset kept with
  | zero => omega
  | succ fuel ih =>
    have hlen : (page arranged limit offset).length = min limit (arranged.length - offset) := by
      rw [page, length_take, length_drop]
    have hsplit : page arranged limit offset ++
        arranged.drop (offset + (page arranged limit offset).length) = arranged.drop offset :=
      page_append offset
    rw [readAll, hselect offset]
    by_cases hempty : (page arranged limit offset).isEmpty = true
    · rw [if_pos hempty]
      have hnone : (page arranged limit offset).length = 0 := by
        rw [List.isEmpty_iff.mp hempty]
        rfl
      have hrest : arranged.drop offset = [] := drop_eq_nil_of_le (by omega)
      rw [hrest]
      rfl
    rw [if_neg hempty, ← hsplit, foldlM_append]
    cases hkept : (page arranged limit offset).foldlM keep kept with
    | none => rfl
    | some kept =>
      change (if (page arranged limit offset).length < limit then _ else _) =
        some ((arranged.drop _).foldlM keep kept)
      by_cases hshort : (page arranged limit offset).length < limit
      · have hrest : arranged.drop (offset + (page arranged limit offset).length) = [] :=
          drop_eq_nil_of_le (by omega)
        rw [if_pos hshort, hrest]
        rfl
      rw [if_neg hshort]
      apply ih
      · omega
      omega

theorem Answers.one (h : Answers le rows limit select)
    (hkey : ∀ a ∈ rows, ∀ b ∈ rows, le a b → le b a → a = b) :
    ∃ arranged, arranged.Perm rows ∧ arranged.Pairwise le ∧
      ∀ offset, select offset = page arranged limit offset := by
  obtain ⟨first, hperm, hsorted, -⟩ := h 0
  refine ⟨first, hperm, hsorted, ?_⟩
  intro offset
  obtain ⟨arranged, hperm', hsorted', hpage⟩ := h offset
  have hsame : arranged = first := by
    apply List.Perm.eq_of_pairwise _ hsorted' hsorted (hperm'.trans hperm.symm)
    intro a b ha hb hab hba
    exact hkey a (hperm'.mem_iff.mp ha) b (hperm.mem_iff.mp hb) hab hba
  rw [hpage, hsame]

theorem Answers.read_whole (h : Answers le rows limit select) (hlimit : 0 < limit)
    (hkey : ∀ a ∈ rows, ∀ b ∈ rows, le a b → le b a → a = b) (kept : σ) :
    ∃ arranged : List α, arranged.Perm rows ∧
      readAll select limit keep (rows.length + 1) 0 kept = some (arranged.foldlM keep kept) := by
  obtain ⟨arranged, hperm, -, hselect⟩ := h.one hkey
  refine ⟨arranged, hperm, ?_⟩
  have hlen := hperm.length_eq
  have hread : readAll select limit keep (rows.length + 1) 0 kept =
      some ((arranged.drop 0).foldlM keep kept) :=
    readAll_page hlimit hselect (rows.length + 1) 0 kept (by omega) (by omega)
  rw [hread, drop_zero]

end OffsetPaging
