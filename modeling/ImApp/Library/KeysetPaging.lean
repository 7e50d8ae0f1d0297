import Mathlib.Data.List.Sort

/-!
Reading a table page by page in the order of its key. A page holds the first rows
after the last row of the page before. Rows that the order does not separate would be
lost at a page boundary, so each row's key is its own; then the pages together hold
every row once, also when rows that were read already are changed or removed between
two pages.
-/

namespace KeysetPaging

open List

variable {α : Type*} (le : α → α → Prop) [DecidableRel le]

/-- `a` comes strictly before `b`. -/
abbrev Before (a b : α) : Prop := le a b ∧ ¬ le b a

/-- The rows after the last one read, all rows before the first page. -/
def unread (rows : List α) : Option α → List α
  | none => rows
  | some last => rows.filter (fun row => Before le last row)

/-- The row comes after the last one read. -/
def isAfter : Option α → α → Bool
  | none, _ => true
  | some last, row => Before le last row

def page (limit : ℕ) (rows : List α) (last : Option α) : List α :=
  ((unread le rows last).insertionSort le).take limit

/-- No two rows are equal in the order. -/
def Keyed (rows : List α) : Prop := rows.Pairwise (fun a b => ¬ (le a b ∧ le b a))

variable {le} {limit : ℕ} {rows : List α} {last : Option α}

theorem unread_eq : unread le rows last = rows.filter (isAfter le last) := by
  cases last with
  | none => exact (filter_true rows).symm
  | some a => rfl

theorem mem_unread {row : α} : row ∈ unread le rows last ↔ row ∈ rows ∧ isAfter le last row = true := by
  rw [unread_eq, mem_filter]

theorem unread_subset : unread le rows last ⊆ rows := by
  cases last with
  | none => exact fun _ h => h
  | some a => exact fun _ h => (mem_filter.mp h).1

theorem Keyed.unread (h : Keyed le rows) : Keyed le (unread le rows last) := by
  cases last with
  | none => exact h
  | some a => exact h.filter _

theorem unread_filter {kept : α → Bool} :
    unread le (rows.filter fun row => isAfter le last row || kept row) last =
      unread le rows last := by
  rw [unread_eq, unread_eq, filter_filter]
  refine filter_congr fun row _ => ?_
  cases isAfter le last row <;> simp

theorem mem_page {row : α} (h : row ∈ page le limit rows last) : row ∈ unread le rows last :=
  (mem_insertionSort le).mp (mem_of_mem_take h)

theorem page_of_short (hshort : (page le limit rows last).length < limit) :
    (page le limit rows last).Perm (unread le rows last) := by
  have hlen : ((unread le rows last).insertionSort le).length ≤ limit := by
    by_contra hlong
    rw [page, length_take] at hshort
    omega
  rw [page, take_of_length_le hlen]
  exact perm_insertionSort le _

theorem filter_before {front rest : List α} {a : α}
    (h : (front ++ a :: rest).Pairwise (Before le)) :
    (front ++ a :: rest).filter (fun row => Before le a row) = rest := by
  obtain ⟨_, hback, hcross⟩ := pairwise_append.mp h
  obtain ⟨hrest, _⟩ := pairwise_cons.mp hback
  have hfront : front.filter (fun row => Before le a row) = [] := by
    apply filter_eq_nil_iff.mpr
    intro row hrow hafter
    have hpre := hcross row hrow a mem_cons_self
    exact hpre.2 (of_decide_eq_true hafter).1
  rw [filter_append, hfront, nil_append, filter_cons_of_neg (by simp)]
  apply filter_eq_self.mpr
  intro row hrow
  exact decide_eq_true (hrest row hrow)

section Order

variable [IsTrans α le]

omit [DecidableRel le] in
theorem Before.trans_le {a b c : α} (hab : Before le a b) (hbc : le b c) : Before le a c :=
  ⟨IsTrans.trans a b c hab.1 hbc, fun hca => hab.2 (IsTrans.trans b c a hbc hca)⟩

theorem unread_of_before {a b : α} (ha : a ∈ unread le rows last) (hb : b ∈ rows)
    (hab : Before le a b) : b ∈ unread le rows last := by
  cases last with
  | none => exact hb
  | some c =>
    have hca : Before le c a := of_decide_eq_true (mem_filter.mp ha).2
    exact mem_filter.mpr ⟨hb, decide_eq_true (hca.trans_le hab.1)⟩

theorem unread_eq_filter {a : α} (ha : a ∈ unread le rows last) :
    unread le rows (some a) = (unread le rows last).filter (fun row => Before le a row) := by
  cases last with
  | none => rfl
  | some c =>
    have hca : Before le c a := of_decide_eq_true (mem_filter.mp ha).2
    simp only [unread, filter_filter]
    refine filter_congr fun row _ => ?_
    by_cases hrow : Before le a row
    · simp [hrow, hca.trans_le hrow.1]
    simp [hrow]

variable [Std.Total le]

theorem Keyed.sorted (h : Keyed le rows) : (rows.insertionSort le).Pairwise (Before le) := by
  have hkeyed : Keyed le (rows.insertionSort le) := by
    refine (perm_insertionSort le rows).symm.pairwise h ?_
    intro a b hne heq
    exact hne ⟨heq.2, heq.1⟩
  refine hkeyed.imp₂ ?_ (pairwise_insertionSort le rows)
  intro a b hne hle
  exact ⟨hle, fun hge => hne ⟨hle, hge⟩⟩

theorem Keyed.sort_filter (h : Keyed le rows) (select : α → Bool) :
    (rows.filter select).insertionSort le = (rows.insertionSort le).filter select := by
  have hselected : Keyed le (rows.filter select) := h.filter _
  have hsorted := h.sorted.filter select
  refine List.Perm.eq_of_pairwise ?_ hselected.sorted hsorted ?_
  · intro a b _ _ hab hba
    exact absurd hba.1 hab.2
  exact (perm_insertionSort le _).trans ((perm_insertionSort le rows).filter _).symm

theorem not_after_of_mem_page {front : List α} {a row : α} (h : Keyed le rows)
    (hpage : page le limit rows last = front ++ [a]) (hrow : row ∈ page le limit rows last) :
    isAfter le (some a) row = false := by
  have hunread : Keyed le (unread le rows last) := h.unread
  have hsorted := hunread.sorted
  have hread : (page le limit rows last).Pairwise (Before le) :=
    hsorted.sublist (take_sublist _ _)
  rw [hpage] at hread hrow
  obtain ⟨_, _, hlast⟩ := pairwise_append.mp hread
  rcases mem_append.mp hrow with hfront | hself
  · simp [isAfter, (hlast row hfront a (mem_singleton_self a)).1]
  simp [isAfter, mem_singleton.mp hself]

/-- The last row of a page splits the rows still to be read into the page and what
comes after that row. -/
theorem page_append_unread {front : List α} {a : α} (h : Keyed le rows)
    (hpage : page le limit rows last = front ++ [a]) :
    (page le limit rows last ++ unread le rows (some a)).Perm (unread le rows last) := by
  have hunread : Keyed le (unread le rows last) := h.unread
  have hsorted := hunread.sorted
  rw [← take_append_drop limit ((unread le rows last).insertionSort le)] at hsorted
  obtain ⟨_, _, hcross⟩ := pairwise_append.mp hsorted
  change ∀ x ∈ page le limit rows last, _ at hcross
  have ha : a ∈ page le limit rows last := by simp [hpage]
  have hnone : (page le limit rows last).filter (isAfter le (some a)) = [] := by
    refine filter_eq_nil_iff.mpr fun row hrow => ?_
    rw [not_after_of_mem_page h hpage hrow]
    exact Bool.false_ne_true
  have hall : (((unread le rows last).insertionSort le).drop limit).filter
      (isAfter le (some a)) = ((unread le rows last).insertionSort le).drop limit :=
    filter_eq_self.mpr fun row hrow => decide_eq_true (hcross a ha row hrow)
  have hsplit := (perm_insertionSort le (unread le rows last)).filter (isAfter le (some a))
  rw [← take_append_drop limit ((unread le rows last).insertionSort le),
    filter_append, hall] at hsplit
  change ((page le limit rows last).filter _ ++ _).Perm _ at hsplit
  rw [hnone, nil_append] at hsplit
  change List.Perm _ ((unread le rows last).filter fun row => Before le a row) at hsplit
  rw [← unread_eq_filter (mem_page ha)] at hsplit
  have hsort := perm_insertionSort le (unread le rows last)
  rw [← take_append_drop limit ((unread le rows last).insertionSort le)] at hsort
  exact (hsplit.symm.append_left _).trans hsort

end Order

end KeysetPaging
