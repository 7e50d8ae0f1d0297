import ImApp.Retention.Plan

/-!
The history boundary of a plan. A boundary is issued only where the candidates
form a prefix below every kept row. For a plan that the planner made, the
boundary is the first kept row, and the plan is refused exactly when a candidate
lies above a kept row.
-/

namespace ImApp.Retention

open KeepNewest List Option

def planQuota (plan : RetentionPlan) : Int :=
  if 0 < plan.maxMessages then normalizeMaxMessages plan.maxMessages else groupRetentionCount

/-- The least kept row, starting from `boundary`. -/
def keptBoundary (plan : RetentionPlan) : List Int → Int → Option Int
  | [], boundary => some boundary
  | seq :: rest, boundary => if seq ≤ plan.overCountThrough ∨ plan.watermark < seq then none
    else keptBoundary plan rest (min boundary seq)

def candidateFits (plan : RetentionPlan) (boundary : Int) (candidate : RetentionCandidate) : Bool :=
  plan.overCountThrough < candidate.seq && candidate.seq < boundary && candidate.overAge &&
    candidate.overCount

/-- Turns a recomputed plan into a history boundary. Zero means that there is
nothing to remove. -/
def retentionMinSeq (plan : RetentionPlan) : Option Int :=
  if plan.mode ≠ previewOnly ∨ plan.watermark < 0 ∨ seqLimit ≤ plan.watermark ∨
      plan.overCountThrough < 0 ∨
      (0 < plan.overCountThrough ∧ (plan.watermark ≤ plan.overCountThrough ∨
        (plan.kept.length + plan.candidates.length : Int) < planQuota plan)) then none
  else if plan.candidates = [] ∧ plan.overCountThrough = 0 then some 0
  else (keptBoundary plan plan.kept (plan.watermark + 1)).bind fun boundary =>
    if !plan.candidates.all (candidateFits plan boundary) then none
    else if seqLimit ≤ boundary then none
    else some boundary

theorem keptBoundary_eq_some {plan : RetentionPlan} {kept : List Int} {start : Int}
    (hrange : ∀ seq ∈ kept, plan.overCountThrough < seq ∧ seq ≤ plan.watermark) :
    keptBoundary plan kept start = some (kept.foldl min start) := by
  induction kept generalizing start with
  | nil => rfl
  | cons seq rest ih =>
    have hseq := hrange seq (by simp)
    have hfits : ¬ (seq ≤ plan.overCountThrough ∨ plan.watermark < seq) := by omega
    rw [keptBoundary, if_neg hfits, ih (fun other hother => hrange other (by simp [hother]))]
    rfl

theorem foldl_min_of_sorted {first start : Int} {rest : List Int}
    (hsorted : (first :: rest).Pairwise (· < ·)) (hstart : first ≤ start) :
    (first :: rest).foldl min start = first := by
  have hrest : ∀ kept : List Int, (∀ k ∈ kept, first < k) → kept.foldl min first = first := by
    intro kept
    induction kept with
    | nil => simp
    | cons k kept ih =>
      intro hlt
      have hk := hlt k (by simp)
      rw [foldl_cons, min_eq_left hk.le]
      exact ih (fun other hother => hlt other (by simp [hother]))
  rw [foldl_cons, min_eq_right hstart]
  exact hrest rest (pairwise_cons.mp hsorted).1

section Plans

variable {snapshot : RetentionSnapshot} {policy : RetentionPolicy} {plan : RetentionPlan}

theorem rule_quota_pos : 0 < (snapshot.rule policy).quota := by
  have := normalizeRetentionPolicy_count_pos policy
  simp only [RetentionSnapshot.rule, RetentionPolicy.rule]
  omega

section

variable (hplan : planGroupRetention snapshot policy = some plan)
include hplan

theorem visibleAt_range {n : Int} (hvis : (snapshot.visibleAt n).isSome) :
    snapshot.overCountThrough < n ∧ n ≤ snapshot.watermark := by
  obtain ⟨message, hmsg, rfl⟩ := visibleAt_isSome_iff.mp hvis
  refine ⟨?_, visibleRows_le_watermark hmsg⟩
  exact ((plannable_of_plan hplan).rows message (mem_filter.mp hmsg).1).afterPrefix

theorem exists_kept {n : Int}
    (hvis : (snapshot.visibleAt n).isSome) : ∃ seq ∈ plan.kept, n ≤ seq := by
  have hquota : 0 < (snapshot.rule policy).quota := rule_quota_pos
  obtain ⟨seq, hle, hret⟩ :=
    exists_retained hquota (visibleAt_range hplan hvis).2 hvis
  exact ⟨seq, (kept_iff hplan seq).mpr hret, hle⟩

theorem exists_visible_of_work (hwork : ¬ (plan.candidates = [] ∧ plan.overCountThrough = 0)) :
    ∃ n, (snapshot.visibleAt n).isSome := by
  by_cases hcands : plan.candidates = []
  · have hplannable := plannable_of_plan hplan
    have hheader : plan.overCountThrough = snapshot.overCountThrough := by
      obtain ⟨scan, _, rfl⟩ := planGroupRetention_eq hplan
      rfl
    have hsummary : 0 < snapshot.overCountThrough := by
      have := hplannable.header.prefixMin
      have : plan.overCountThrough ≠ 0 := fun hzero => hwork ⟨hcands, hzero⟩
      omega
    have hcount := hplannable.proven hsummary
    have hpos := normalizeRetentionPolicy_count_pos policy
    obtain ⟨message, hmsg⟩ := exists_mem_of_length_pos (l := snapshot.visibleRows) (by omega)
    exact ⟨message.seq, visibleAt_isSome_iff.mpr ⟨message, hmsg, rfl⟩⟩
  obtain ⟨candidate, hcand⟩ := exists_mem_of_ne_nil _ hcands
  exact ⟨candidate.seq, ((candidates_iff hplan _).mp ⟨candidate, hcand, rfl⟩).isSome⟩

theorem retentionMinSeq_of_no_work
    (hwork : plan.candidates = [] ∧ plan.overCountThrough = 0) : retentionMinSeq plan = some 0 := by
  have hplannable := plannable_of_plan hplan
  obtain ⟨scan, _, rfl⟩ := planGroupRetention_eq hplan
  have hmin := hplannable.header.watermarkMin
  have hmax := hplannable.header.watermarkMax
  unfold retentionMinSeq
  rw [if_neg, if_pos hwork]
  simp only [rankedPlan] at hwork ⊢
  simp only [ne_eq, not_true_eq_false, false_or, hwork.2]
  omega

theorem retentionMinSeq_of_work (hwork : ¬ (plan.candidates = [] ∧ plan.overCountThrough = 0)) :
    ∃ first ∈ plan.kept, (∀ k ∈ plan.kept, first ≤ k) ∧ retentionMinSeq plan =
        if ∀ candidate ∈ plan.candidates, candidate.seq < first then some first else none := by
  have hplannable := plannable_of_plan hplan
  have hsorted := kept_sorted hplan
  have hlen := plan_rows_length hplan
  obtain ⟨n, hn⟩ := exists_visible_of_work hplan hwork
  obtain ⟨seq, hseq, _⟩ := exists_kept hplan hn
  have hrange : ∀ k ∈ plan.kept, snapshot.overCountThrough < k ∧ k ≤ snapshot.watermark := by
    intro k hk
    exact visibleAt_range hplan ((kept_iff hplan k).mp hk).isSome
  have hcands : ∀ candidate ∈ plan.candidates, snapshot.overCountThrough < candidate.seq := by
    intro candidate hcand
    have := (candidates_iff hplan candidate.seq).mp ⟨candidate, hcand, rfl⟩
    exact (visibleAt_range hplan this.isSome).1
  have hremoved : ∀ candidate ∈ plan.candidates,
      candidate.overAge = true ∧ candidate.overCount = true :=
    fun candidate hcand => candidates_removed hplan hcand
  have hheader : plan.mode = previewOnly ∧ plan.watermark = snapshot.watermark ∧
      plan.overCountThrough = snapshot.overCountThrough ∧
      plan.maxMessages = (normalizeRetentionPolicy policy).maxMessages := by
    obtain ⟨scan, _, rfl⟩ := planGroupRetention_eq hplan
    exact ⟨rfl, rfl, rfl, rfl⟩
  obtain ⟨hmode, hwatermark, hover, hquota⟩ := hheader
  have hplanQuota : planQuota plan = (normalizeRetentionPolicy policy).maxMessages := by
    have hnormal := normalizeRetentionPolicy_normal policy
    unfold planQuota
    rw [hquota, if_pos (normalizeRetentionPolicy_count_pos policy)]
    exact normalizeMaxMessages_of_normal hnormal.countMin hnormal.countMax
  have hfirst : ∃ first rest, plan.kept = first :: rest := exists_cons_of_ne_nil
    (ne_nil_of_mem hseq)
  obtain ⟨first, rest, hkept⟩ := hfirst
  have hfirstRange := hrange first (by simp [hkept])
  have hbound : keptBoundary plan plan.kept (plan.watermark + 1) = some first := by
    rw [keptBoundary_eq_some (by rw [hover, hwatermark]; exact hrange), hkept,
      foldl_min_of_sorted (hkept ▸ hsorted) (by omega)]
  refine ⟨first, by simp [hkept], ?_, ?_⟩
  · intro k hk
    rw [hkept] at hk hsorted
    rcases mem_cons.mp hk with rfl | hk
    · exact le_rfl
    exact ((pairwise_cons.mp hsorted).1 k hk).le
  have hmin := hplannable.header.watermarkMin
  have hmax := hplannable.header.watermarkMax
  have hsummaryMin := hplannable.header.prefixMin
  have hsummaryMax := hplannable.header.prefixMax
  have hproven := hplannable.proven
  unfold retentionMinSeq
  rw [if_neg, if_neg hwork, hbound, bind_some]
  · have hall : plan.candidates.all (candidateFits plan first) = true ↔
        ∀ candidate ∈ plan.candidates, candidate.seq < first := by
      rw [List.all_eq_true]
      refine forall₂_congr ?_
      intro candidate hcand
      obtain ⟨hage, hcount⟩ := hremoved candidate hcand
      have hlow := hcands candidate hcand
      simp [candidateFits, hage, hcount, hover, hlow]
    by_cases hfits : ∀ candidate ∈ plan.candidates, candidate.seq < first
    · rw [if_pos hfits, hall.mpr hfits, if_neg (by simp), if_neg (by omega)]
    have hbad : plan.candidates.all (candidateFits plan first) = false := by
      rw [Bool.eq_false_iff]
      exact fun htrue => hfits (hall.mp htrue)
    rw [if_neg hfits, hbad, if_pos (by simp)]
  rw [hplanQuota, hover, hwatermark]
  simp only [hmode, ne_eq, not_true_eq_false, false_or]
  push Not
  refine ⟨hmin, hmax, hsummaryMin, fun hpos => ⟨hsummaryMax hpos, ?_⟩⟩
  have := hproven hpos
  omega

theorem removable_of_lt_boundary {boundary m : Int} (hbound : retentionMinSeq plan = some boundary)
    (hvis : (snapshot.visibleAt m).isSome) (hm : m < boundary) :
    Removable (snapshot.rule policy) snapshot.visibleAt snapshot.watermark m := by
  obtain ⟨t, ht⟩ := isSome_iff_exists.mp hvis
  have hcases : Retained (snapshot.rule policy) snapshot.visibleAt snapshot.watermark m ∨
      Removable (snapshot.rule policy) snapshot.visibleAt snapshot.watermark m :=
    retained_or_removable ht
  rcases hcases with hret | hremovable
  · exfalso
    have hkept := (kept_iff hplan m).mpr hret
    have hlow := (visibleAt_range hplan hvis).1
    have hsummary := (plannable_of_plan hplan).header.prefixMin
    by_cases hwork : plan.candidates = [] ∧ plan.overCountThrough = 0
    · rw [retentionMinSeq_of_no_work hplan hwork] at hbound
      have := some.inj hbound
      omega
    obtain ⟨first, _, hleast, hres⟩ := retentionMinSeq_of_work hplan hwork
    rw [hres] at hbound
    split at hbound
    · have := some.inj hbound
      have := hleast m hkept
      omega
    cases hbound
  exact hremovable

/-- In a chronological snapshot the plan has a boundary, and it delimits exactly
the removable rows. -/
theorem boundary_of_chronological (hchron : Chronological snapshot.visibleAt snapshot.watermark) :
    ∃ boundary, retentionMinSeq plan = some boundary ∧
      ∀ m, (snapshot.visibleAt m).isSome → (m < boundary ↔
        Removable (snapshot.rule policy) snapshot.visibleAt snapshot.watermark m) := by
  by_cases hwork : plan.candidates = [] ∧ plan.overCountThrough = 0
  · have hbound := retentionMinSeq_of_no_work hplan hwork
    refine ⟨0, hbound, fun m hm => ⟨removable_of_lt_boundary hplan hbound hm, ?_⟩⟩
    intro hremovable
    obtain ⟨candidate, hcand, _⟩ := (candidates_iff hplan m).mpr hremovable
    rw [hwork.1] at hcand
    exact absurd hcand (by simp)
  obtain ⟨first, hfirst, _, hres⟩ := retentionMinSeq_of_work hplan hwork
  have hret := (kept_iff hplan first).mp hfirst
  obtain ⟨t, ht⟩ := isSome_iff_exists.mp hret.isSome
  have hbelow : ∀ m, Removable (snapshot.rule policy) snapshot.visibleAt snapshot.watermark m →
      m < first := by
    intro m hremovable
    by_contra habove
    rcases (not_lt.mp habove).eq_or_lt with heq | hlt
    · exact not_removable_of_retained hret (heq ▸ hremovable)
    have hm := (visibleAt_range hplan hremovable.isSome).2
    exact not_removable_of_retained hret (hchron.removable_of_lt hlt hm hremovable ht)
  have hbound : retentionMinSeq plan = some first := by
    rw [hres, if_pos]
    intro candidate hcand
    exact hbelow _ ((candidates_iff hplan _).mp ⟨candidate, hcand, rfl⟩)
  exact ⟨first, hbound, fun m hm =>
    ⟨removable_of_lt_boundary hplan hbound hm, hbelow m⟩⟩

end

end Plans

end ImApp.Retention
