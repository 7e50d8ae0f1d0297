import Mathlib.Data.List.Sort

/-!
Sorted sets: each key has one score, and the entries stand by descending score, ties by
descending key. Whoever asks for the best entry of another key finds it among the first
two.
-/

/-- The order of the entries. -/
def RankedSet.Before {κ : Type*} [LinearOrder κ] (a b : κ × ℕ) : Prop :=
  b.2 < a.2 ∨ (b.2 = a.2 ∧ b.1 ≤ a.1)

structure RankedSet (κ : Type*) [LinearOrder κ] where
  entries : List (κ × ℕ)
  ranked : entries.Pairwise RankedSet.Before
  unique : (entries.map Prod.fst).Nodup

namespace RankedSet

open List

variable {κ : Type*} [LinearOrder κ]

instance (a b : κ × ℕ) : Decidable (Before a b) :=
  inferInstanceAs (Decidable (b.2 < a.2 ∨ (b.2 = a.2 ∧ b.1 ≤ a.1)))

theorem Before.score_le {a b : κ × ℕ} (h : Before a b) : b.2 ≤ a.2 := by
  rcases h with hlt | ⟨heq, -⟩ <;> omega

theorem before_total (a b : κ × ℕ) : Before a b ∨ Before b a := by
  unfold Before
  rcases Nat.lt_trichotomy a.2 b.2 with hlt | heq | hgt
  · exact .inr (.inl hlt)
  · rcases le_total a.1 b.1 with hle | hle
    · exact .inr (.inr ⟨heq, hle⟩)
    exact .inl (.inr ⟨heq.symm, hle⟩)
  exact .inl (.inl hgt)

theorem Before.trans {a b c : κ × ℕ} (hab : Before a b) (hbc : Before b c) : Before a c := by
  unfold Before at *
  rcases hab with hlt | ⟨heq, hle⟩
  · rcases hbc with hlt' | ⟨heq', -⟩ <;> exact .inl (by omega)
  rcases hbc with hlt' | ⟨heq', hle'⟩
  · exact .inl (by omega)
  exact .inr ⟨by omega, hle'.trans hle⟩

def empty : RankedSet κ := ⟨[], List.Pairwise.nil, nodup_nil⟩

def insertRanked (e : κ × ℕ) : List (κ × ℕ) → List (κ × ℕ)
  | [] => [e]
  | a :: rest => if Before e a then e :: a :: rest else a :: insertRanked e rest

theorem insertRanked_perm (e : κ × ℕ) (entries : List (κ × ℕ)) :
    (insertRanked e entries).Perm (e :: entries) := by
  induction entries with
  | nil => exact List.Perm.refl _
  | cons a rest ih =>
    unfold insertRanked
    split
    · exact List.Perm.refl _
    exact (ih.cons a).trans (List.Perm.swap e a rest)

theorem insertRanked_ranked (e : κ × ℕ) {entries : List (κ × ℕ)} (h : entries.Pairwise Before) :
    (insertRanked e entries).Pairwise Before := by
  induction entries with
  | nil => exact pairwise_singleton ..
  | cons a rest ih =>
    obtain ⟨hfirst, hrest⟩ := pairwise_cons.mp h
    unfold insertRanked
    split
    · rename_i hpre
      apply pairwise_cons.mpr
      refine ⟨?_, h⟩
      intro b hb
      rcases mem_cons.mp hb with rfl | hb
      · exact hpre
      exact hpre.trans (hfirst b hb)
    rename_i hnot
    apply pairwise_cons.mpr
    refine ⟨?_, ih hrest⟩
    intro b hb
    rcases mem_cons.mp ((insertRanked_perm e rest).mem_iff.mp hb) with rfl | hb
    · exact (before_total a b).resolve_right hnot
    exact hfirst b hb

/-- `ZADD`: the key gets the score, whatever it had. -/
def put (s : RankedSet κ) (key : κ) (score : ℕ) : RankedSet κ where
  entries := insertRanked (key, score) (s.entries.filter fun e => e.1 ≠ key)
  ranked := insertRanked_ranked _ (s.ranked.filter _)
  unique := by
    have hperm := (insertRanked_perm (key, score) (s.entries.filter fun e => e.1 ≠ key)).map Prod.fst
    rw [hperm.nodup_iff, map_cons, nodup_cons]
    refine ⟨?_, s.unique.sublist (filter_sublist.map Prod.fst)⟩
    intro hmem
    obtain ⟨e, he, hkey⟩ := mem_map.mp hmem
    simp [hkey] at he

variable {s : RankedSet κ} {key : κ}

theorem mem_put {score : ℕ} {e : κ × ℕ} :
    e ∈ (s.put key score).entries ↔ e = (key, score) ∨ (e ∈ s.entries ∧ e.1 ≠ key) := by
  rw [put, (insertRanked_perm _ _).mem_iff, mem_cons, mem_filter, decide_eq_true_eq]

theorem score_unique {a b : ℕ} (ha : (key, a) ∈ s.entries) (hb : (key, b) ∈ s.entries) : a = b := by
  have hsame := inj_on_of_nodup_map s.unique ha hb rfl
  exact congrArg Prod.snd hsame

/-- The first entry of another key among the first two. -/
def firstOther (s : RankedSet κ) (key : κ) : Option (κ × ℕ) :=
  (s.entries.take 2).find? fun e => e.1 ≠ key

theorem firstOther_some {e : κ × ℕ} (h : s.firstOther key = some e) :
    e ∈ s.entries ∧ e.1 ≠ key ∧ ∀ b ∈ s.entries, b.1 ≠ key → b.2 ≤ e.2 := by
  have hmem := mem_of_mem_take (mem_of_find?_eq_some h)
  have hother : e.1 ≠ key := by simpa using find?_some h
  refine ⟨hmem, hother, ?_⟩
  intro b hb hkey
  have hranked := s.ranked
  have hunique := s.unique
  unfold firstOther at h
  generalize s.entries = entries at h hmem hb hranked hunique
  cases entries with
  | nil => cases hb
  | cons first rest =>
    obtain ⟨hfirst, hrest⟩ := pairwise_cons.mp hranked
    by_cases hskip : first.1 = key
    · -- the key itself leads, so the second entry is the best of the others
      cases rest with
      | nil =>
        rcases mem_singleton.mp hb with rfl
        exact absurd hskip hkey
      | cons second others =>
        have hsecond : second.1 ≠ key := by
          intro hsame
          have hnodup := (nodup_cons.mp hunique).1
          apply hnodup
          rw [hskip, ← hsame]
          exact mem_cons_self
        have hfound : second = e := by simpa [hskip, hsecond] using h
        rw [← hfound]
        rcases mem_cons.mp hb with rfl | hb
        · exact absurd hskip hkey
        rcases mem_cons.mp hb with rfl | hb
        · exact Nat.le_refl _
        exact ((pairwise_cons.mp hrest).1 b hb).score_le
    have hfound : first = e := by simpa [hskip] using h
    rw [← hfound]
    rcases mem_cons.mp hb with rfl | hb
    · exact Nat.le_refl _
    exact (hfirst b hb).score_le

end RankedSet
