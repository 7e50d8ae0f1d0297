import Mathlib.Data.Finset.Max
import Mathlib.Order.Interval.Finset.Basic

/-!
Keeping the newest items of a numbered history. An item is retained while it is
inside a time window or among the newest `quota` items, and it is removable when
it is neither. The history is a partial map from positions to times; empty
positions use no quota.
-/

namespace KeepNewest

open List

variable {κ τ : Type*}

structure Rule (τ : Type*) where
  quota : ℕ
  cutoff : τ

section Ranks

variable {α : Type*} [LinearOrder κ] (position : α → κ)

def newestFirst (items : List α) : List α :=
  items.insertionSort (fun a b => position b ≤ position a)

theorem newestFirst_perm (items : List α) : (newestFirst position items).Perm items :=
  perm_insertionSort _ _

variable {position}

variable {items : List α} {a : α}

@[simp]
theorem mem_newestFirst : a ∈ newestFirst position items ↔ a ∈ items :=
  (newestFirst_perm position items).mem_iff

variable (position) in
theorem newestFirst_sorted (items : List α) :
    (newestFirst position items).Pairwise (fun a b => position b ≤ position a) := by
  have : Std.Total (fun a b : α => position b ≤ position a) :=
    ⟨fun a b => le_total (position b) (position a)⟩
  have : IsTrans α (fun a b : α => position b ≤ position a) :=
    ⟨fun _ _ _ hab hbc => hbc.trans hab⟩
  exact pairwise_insertionSort _ items

theorem newestFirst_strict (hnodup : (items.map position).Nodup) :
    (newestFirst position items).Pairwise (fun a b => position b < position a) := by
  have hle := newestFirst_sorted position items
  have hne : (newestFirst position items).Pairwise (fun a b => position a ≠ position b) := by
    have := ((newestFirst_perm position items).map position).nodup_iff.mpr hnodup
    exact pairwise_map.mp this
  exact (hle.and hne).imp (fun h => lt_of_le_of_ne h.1 h.2.symm)

theorem le_of_head {b : α} (hhead : (newestFirst position items).head? = some a) (hb : b ∈ items) :
    position b ≤ position a := by
  have hsorted := newestFirst_sorted position items
  have hlisted : b ∈ newestFirst position items := mem_newestFirst.mpr hb
  cases hlist : newestFirst position items with
  | nil => simp [hlist] at hhead
  | cons first rest =>
    rw [hlist] at hhead hlisted hsorted
    obtain rfl : first = a := Option.some.inj hhead
    rcases mem_cons.mp hlisted with rfl | hrest
    · exact le_rfl
    exact (pairwise_cons.mp hsorted).1 b hrest

theorem head_of_newest (ha : a ∈ items) (hnewest : ∀ b ∈ items, b ≠ a → position b < position a) :
    (newestFirst position items).head? = some a := by
  cases hlist : (newestFirst position items).head? with
  | none =>
    rw [head?_eq_none_iff] at hlist
    have hlisted : a ∈ newestFirst position items := mem_newestFirst.mpr ha
    rw [hlist] at hlisted
    cases hlisted
  | some b =>
    have hb : b ∈ items := mem_newestFirst.mp (mem_of_head? hlist)
    by_cases hab : b = a
    · rw [hab]
    exact absurd (hnewest b hb hab) (not_lt.mpr (le_of_head hlist ha))

/-- In a list that is newest first, the rank of an item is the number of items
with a greater position. -/
theorem rank_eq_countP (hsorted : items.Pairwise (fun a b => position b < position a)) {rank k : ℕ}
    (hmem : (a, rank) ∈ items.zipIdx k) :
    rank = k + items.countP (fun b => position a < position b) := by
  induction items generalizing k with
  | nil => simp at hmem
  | cons x xs ih =>
    obtain ⟨hhead, htail⟩ := pairwise_cons.mp hsorted
    rw [zipIdx_cons, mem_cons] at hmem
    rcases hmem with heq | hmem
    · cases heq
      have hzero : xs.countP (fun b => position a < position b) = 0 := by
        rw [countP_eq_zero]
        intro b hb
        simpa using (hhead b hb).le
      rw [countP_cons, hzero]
      simp
    have hax : position a < position x := by
      obtain ⟨_, _, ha⟩ := mem_zipIdx hmem
      rw [ha]
      exact hhead _ (getElem_mem _)
    rw [ih htail hmem, countP_cons, if_pos (by simpa using hax)]
    omega

theorem exists_rank (hmem : a ∈ items) (k : ℕ) : ∃ rank, (a, rank) ∈ items.zipIdx k := by
  rw [← zipIdx_map_fst k items] at hmem
  obtain ⟨⟨b, rank⟩, hpair, rfl⟩ := mem_map.mp hmem
  exact ⟨rank, hpair⟩

theorem length_without_drop [DecidableEq α] {sorted : List α} (hnodup : items.Nodup)
    (hperm : sorted.Perm items) (quota : ℕ) :
    (items.filter fun a => a ∉ sorted.drop quota).length ≤ quota := by
  have hsub : (items.filter fun a => a ∉ sorted.drop quota) ⊆ sorted.take quota := by
    intro a ha
    obtain ⟨hitem, hnot⟩ := mem_filter.mp ha
    have hsorted : a ∈ sorted.take quota ++ sorted.drop quota := by
      rw [take_append_drop]
      exact hperm.mem_iff.mpr hitem
    exact (mem_append.mp hsorted).resolve_right (of_decide_eq_true hnot)
  calc (items.filter fun a => a ∉ sorted.drop quota).length
      ≤ (sorted.take quota).length := ((hnodup.filter _).subperm hsub).length_le
    _ ≤ quota := length_take_le _ _

end Ranks

variable [LinearOrder κ] [LocallyFiniteOrder κ]

/-- The number of items at the positions after `m`, up to `last`. -/
def newer (view : κ → Option τ) (last m : κ) : ℕ :=
  {n ∈ Finset.Ioc m last | (view n).isSome}.card

section Counting

variable {view : κ → Option τ} {last m n : κ}

theorem newer_antitone (hmn : m ≤ n) : newer view last n ≤ newer view last m := by
  apply Finset.card_le_card
  apply Finset.filter_subset_filter
  exact Finset.Ioc_subset_Ioc_left hmn

theorem newer_lt (hmn : m < n) (hn : n ≤ last) (hitem : (view n).isSome) :
    newer view last n < newer view last m := by
  apply Finset.card_lt_card
  refine ⟨Finset.filter_subset_filter _ (Finset.Ioc_subset_Ioc_left hmn.le), ?_⟩
  intro hsubset
  have hmem : n ∈ {k ∈ Finset.Ioc m last | (view k).isSome} := by
    simp [hmn, hn, hitem]
  have := hsubset hmem
  simp at this

theorem newer_covBy (hcover : m ⋖ n) (hn : n ≤ last) :
    newer view last m = newer view last n + if (view n).isSome then 1 else 0 := by
  have hinterval : Finset.Ioc m last = insert n (Finset.Ioc n last) := by
    ext k
    simp only [Finset.mem_Ioc, Finset.mem_insert]
    constructor
    · rintro ⟨hmk, hkl⟩
      rcases (hcover.ge_of_gt hmk).eq_or_lt with rfl | hlt
      · exact .inl rfl
      exact .inr ⟨hlt, hkl⟩
    rintro (rfl | ⟨hlt, hkl⟩)
    · exact ⟨hcover.lt, hn⟩
    exact ⟨hcover.lt.trans hlt, hkl⟩
  unfold newer
  rw [hinterval, Finset.filter_insert]
  split
  · rw [Finset.card_insert_of_notMem (by simp)]
  rfl

theorem newer_congr {view' : κ → Option τ}
    (hview : ∀ k, m < k → k ≤ last → (view k).isSome = (view' k).isSome) :
    newer view last m = newer view' last m := by
  unfold newer
  congr 1
  apply Finset.filter_congr
  intro k hk
  obtain ⟨hmk, hkl⟩ := Finset.mem_Ioc.mp hk
  rw [hview k hmk hkl]

theorem countP_eq_newer {α : Type*} {position : α → κ} {items : List α} 
    (hnodup : (items.map position).Nodup)
    (hview : ∀ k, (∃ a ∈ items, position a = k) ↔ k ≤ last ∧ (view k).isSome) :
    items.countP (fun b => m < position b) = newer view last m := by
  have hfiltered : ((items.filter (fun b => m < position b)).map position).Nodup :=
    hnodup.sublist (filter_sublist.map position)
  rw [countP_eq_length_filter, ← length_map position, ← toFinset_card_of_nodup hfiltered]
  unfold newer
  congr 1
  ext k
  simp only [mem_toFinset, mem_map, mem_filter, decide_eq_true_eq,
    Finset.mem_filter, Finset.mem_Ioc]
  constructor
  · rintro ⟨a, ⟨ha, hlt⟩, rfl⟩
    obtain ⟨hle, hsome⟩ := (hview (position a)).mp ⟨a, ha, rfl⟩
    exact ⟨⟨hlt, hle⟩, hsome⟩
  rintro ⟨⟨hlt, hle⟩, hsome⟩
  obtain ⟨a, ha, rfl⟩ := (hview k).mpr ⟨hle, hsome⟩
  exact ⟨a, ⟨ha, hlt⟩, rfl⟩

end Counting

variable [LinearOrder τ]

def Retained (rule : Rule τ) (view : κ → Option τ) (last m : κ) : Prop :=
  ∃ t, view m = some t ∧ (rule.cutoff ≤ t ∨ newer view last m < rule.quota)

def Removable (rule : Rule τ) (view : κ → Option τ) (last m : κ) : Prop :=
  ∃ t, view m = some t ∧ t < rule.cutoff ∧ rule.quota ≤ newer view last m

/-- Later positions carry later times. -/
def Chronological (view : κ → Option τ) (last : κ) : Prop :=
  ∀ m n tm tn, m < n → n ≤ last → view m = some tm → view n = some tn → tm ≤ tn

variable {rule : Rule τ} {view : κ → Option τ} {last m n : κ}

theorem not_removable_of_retained (h : Retained rule view last m) :
    ¬ Removable rule view last m := by
  rintro ⟨t, ht, hold, hcount⟩
  obtain ⟨t', ht', hkeep⟩ := h
  obtain rfl : t = t' := Option.some.inj (ht.symm.trans ht')
  rcases hkeep with hkeep | hkeep
  · exact absurd hold (not_lt.mpr hkeep)
  exact absurd hcount (not_le.mpr hkeep)

theorem retained_or_removable {t : τ} (ht : view m = some t) :
    Retained rule view last m ∨ Removable rule view last m := by
  by_cases hold : t < rule.cutoff
  · by_cases hcount : rule.quota ≤ newer view last m
    · exact .inr ⟨t, ht, hold, hcount⟩
    exact .inl ⟨t, ht, .inr (not_le.mp hcount)⟩
  exact .inl ⟨t, ht, .inl (not_lt.mp hold)⟩

/-- Below an item with at most one newer item missing to the quota, age alone
decides. -/
theorem removable_below {t : τ} (hmn : m < n) (hn : n ≤ last) (hitem : (view n).isSome)
    (hquota : rule.quota ≤ newer view last n + 1) (ht : view m = some t)
    (hold : t < rule.cutoff) : Removable rule view last m := by
  have hcount : newer view last n < newer view last m := newer_lt hmn hn hitem
  exact ⟨t, ht, hold, by omega⟩

theorem Chronological.removable_of_lt {t : τ} (hchron : Chronological view last)
    (hmn : m < n) (hn : n ≤ last) (h : Removable rule view last n)
    (ht : view m = some t) : Removable rule view last m := by
  obtain ⟨tn, htn, hold, hcount⟩ := h
  refine ⟨t, ht, ?_, hcount.trans (newer_antitone hmn.le)⟩
  exact lt_of_le_of_lt (hchron m n t tn hmn hn ht htn) hold

theorem Retained.isSome (h : Retained rule view last m) : (view m).isSome := by
  obtain ⟨t, ht, _⟩ := h
  simp [ht]

theorem Removable.isSome (h : Removable rule view last m) : (view m).isSome := by
  obtain ⟨t, ht, _⟩ := h
  simp [ht]

theorem exists_retained (hquota : 0 < rule.quota) (hn : n ≤ last) (hitem : (view n).isSome) :
    ∃ k, n ≤ k ∧ Retained rule view last k := by
  have hnonempty : {k ∈ Finset.Icc n last | (view k).isSome}.Nonempty :=
    ⟨n, by simp [hn, hitem]⟩
  obtain ⟨newest, hmem, hmax⟩ := Finset.exists_max_image _ id hnonempty
  obtain ⟨hinterval, hsome⟩ := Finset.mem_filter.mp hmem
  obtain ⟨hle, hlast⟩ := Finset.mem_Icc.mp hinterval
  obtain ⟨t, ht⟩ := Option.isSome_iff_exists.mp hsome
  refine ⟨newest, hle, t, ht, .inr ?_⟩
  have hzero : newer view last newest = 0 := by
    unfold newer
    rw [Finset.card_eq_zero, Finset.filter_eq_empty_iff]
    intro k hk hitem
    obtain ⟨hlt, hkl⟩ := Finset.mem_Ioc.mp hk
    have hk' : k ∈ {k ∈ Finset.Icc n last | (view k).isSome} := by
      simp [hle.trans hlt.le, hkl, hitem]
    exact absurd (hmax k hk') (not_le.mpr hlt)
  rw [hzero]
  exact hquota

end KeepNewest
