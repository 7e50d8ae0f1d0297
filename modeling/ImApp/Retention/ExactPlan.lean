import ImApp.Retention.Boundary

/-!
A plan without a summarized prefix, stated row by row. Every accepted row has exactly one
share in the plan, the kept rows are those of the union rule counted over the rows
themselves, and the boundary of the plan separates its two lists or is refused.
-/

namespace ImApp.Retention

open KeepNewest List Option

section

variable (snapshot : RetentionSnapshot)

def RetentionSnapshot.isHiddenRow (message : RetentionMessage) : Bool :=
  message.seq ≤ snapshot.watermark && message.visibility = .hidden

def RetentionSnapshot.hiddenRows : List RetentionMessage :=
  snapshot.messages.filter snapshot.isHiddenRow

/-- Rows sent after the snapshot was fixed. -/
def RetentionSnapshot.isLaterRow (message : RetentionMessage) : Bool :=
  snapshot.watermark < message.seq

def RetentionSnapshot.laterRows : List RetentionMessage :=
  snapshot.messages.filter snapshot.isLaterRow

/-- The number of visible rows that are newer. -/
def RetentionSnapshot.newerVisible (n : Int) : ℕ :=
  snapshot.visibleRows.countP fun other => n < other.seq

end

inductive Share where
  | kept
  | candidate
  | hidden
  | afterWatermark

/-- The row has this share in the plan. -/
def RetentionPlan.Puts (plan : RetentionPlan) (snapshot : RetentionSnapshot)
    (message : RetentionMessage) : Share → Prop
  | .kept => message.seq ∈ plan.kept
  | .candidate => ∃ candidate ∈ plan.candidates, candidate.seq = message.seq
  | .hidden => message ∈ snapshot.hiddenRows
  | .afterWatermark => message ∈ snapshot.laterRows

/-- What a plan says about the rows of its snapshot. -/
structure ExactPlan (snapshot : RetentionSnapshot) (policy : RetentionPolicy)
    (plan : RetentionPlan) : Prop where
  share : ∀ message ∈ snapshot.messages, ∃! share, plan.Puts snapshot message share
  once : (plan.kept ++ plan.candidates.map RetentionCandidate.seq).Nodup
  hidden : plan.hiddenCount = snapshot.hiddenRows.length
  later : plan.afterWatermarkCount = snapshot.laterRows.length
  total : plan.kept.length + plan.candidates.length + plan.hiddenCount +
    plan.afterWatermarkCount = snapshot.messages.length
  /-- The rows inside the window and the newest ones, and no others. -/
  kept : ∀ n, n ∈ plan.kept ↔ ∃ message ∈ snapshot.visibleRows, message.seq = n ∧
    (snapshot.serverTime - (normalizeRetentionPolicy policy).window ≤ message.sendTime ∨
      (snapshot.newerVisible n : Int) < (normalizeRetentionPolicy policy).maxMessages)
  nothing : retentionMinSeq plan = some 0 ↔ plan.candidates = []
  between : ∀ boundary, retentionMinSeq plan = some boundary → plan.candidates ≠ [] →
    (∀ n ∈ plan.kept, boundary ≤ n) ∧ ∀ candidate ∈ plan.candidates, candidate.seq < boundary
  refused : retentionMinSeq plan = none ↔
    ∃ candidate ∈ plan.candidates, ∃ n ∈ plan.kept, n < candidate.seq

section

variable {snapshot : RetentionSnapshot} {policy : RetentionPolicy} {plan : RetentionPlan}

variable {message : RetentionMessage}

theorem scanMessage_counts {scan next : PlanScan}
    (hscan : scanMessage snapshot scan message = some next) :
    next.hiddenCount = scan.hiddenCount + ([message].filter snapshot.isHiddenRow).length ∧
      next.afterWatermarkCount =
        scan.afterWatermarkCount + ([message].filter snapshot.isLaterRow).length := by
  unfold scanMessage at hscan
  split at hscan
  · cases hscan
  by_cases hafter : snapshot.watermark < message.seq
  · simp only [if_pos hafter, some.injEq] at hscan
    subst hscan
    simp [RetentionSnapshot.isHiddenRow, RetentionSnapshot.isLaterRow, hafter]
  simp only [if_neg hafter] at hscan
  cases hvisib : message.visibility with
  | hidden =>
    simp only [hvisib, some.injEq] at hscan
    subst hscan
    simp [RetentionSnapshot.isHiddenRow, RetentionSnapshot.isLaterRow, hvisib, hafter,
      not_lt.mp hafter]
  | visible =>
    simp only [hvisib] at hscan
    split at hscan
    · cases hscan
    rw [← some.inj hscan]
    simp [RetentionSnapshot.isHiddenRow, RetentionSnapshot.isLaterRow, hvisib, hafter]
  | other text => simp [hvisib] at hscan

theorem scanMessages_counts {messages : List RetentionMessage} {scan final : PlanScan}
    (hscan : messages.foldlM (scanMessage snapshot) scan = some final) :
    final.hiddenCount = scan.hiddenCount + (messages.filter snapshot.isHiddenRow).length ∧
      final.afterWatermarkCount =
        scan.afterWatermarkCount + (messages.filter snapshot.isLaterRow).length := by
  induction messages generalizing scan with
  | nil =>
    simp only [foldlM_nil, Option.pure_def, Option.some.injEq] at hscan
    simp [hscan]
  | cons message rest ih =>
    simp only [foldlM_cons, bind_eq_bind, bind_eq_some_iff] at hscan
    obtain ⟨next, hnext, hrest⟩ := hscan
    obtain ⟨hhidden, hlater⟩ := scanMessage_counts hnext
    obtain ⟨hhiddenRest, hlaterRest⟩ := ih hrest
    have hsplit : message :: rest = [message] ++ rest := rfl
    rw [hsplit, filter_append, filter_append, length_append, length_append]
    omega

theorem plan_counts (hplan : planGroupRetention snapshot policy = some plan) :
    plan.hiddenCount = snapshot.hiddenRows.length ∧
      plan.afterWatermarkCount = snapshot.laterRows.length := by
  unfold planGroupRetention at hplan
  by_cases hheader : snapshot.headerRejected
  · simp [hheader] at hplan
  rw [if_neg hheader, bind_eq_some_iff] at hplan
  obtain ⟨scan, hscan, hplan⟩ := hplan
  obtain ⟨hhidden, hlater⟩ := scanMessages_counts hscan
  split at hplan
  · cases hplan
  rw [← some.inj hplan]
  simp only [rankedPlan, RetentionSnapshot.hiddenRows, RetentionSnapshot.laterRows]
  simp only [PlanScan.empty, Nat.zero_add] at hhidden hlater
  exact ⟨hhidden, hlater⟩

theorem row_kind (hplan : planGroupRetention snapshot policy = some plan) (hmsg : message ∈ snapshot.messages) :
    (snapshot.isVisibleRow message = true ∧ snapshot.isHiddenRow message = false ∧
        snapshot.isLaterRow message = false) ∨
      (snapshot.isVisibleRow message = false ∧ snapshot.isHiddenRow message = true ∧
        snapshot.isLaterRow message = false) ∨
      snapshot.isVisibleRow message = false ∧ snapshot.isHiddenRow message = false ∧
        snapshot.isLaterRow message = true := by
  have haccepts := (plannable_of_plan hplan).rows message hmsg
  unfold RetentionSnapshot.isVisibleRow RetentionSnapshot.isHiddenRow RetentionSnapshot.isLaterRow
  by_cases hafter : snapshot.watermark < message.seq
  · simp [hafter, not_le.mpr hafter]
  rcases haccepts.classified (not_lt.mp hafter) with hvis | hhidden
  · simp [hvis, hafter, not_lt.mp hafter]
  simp [hhidden, hafter, not_lt.mp hafter]

theorem rows_length (hplan : planGroupRetention snapshot policy = some plan) :
    snapshot.visibleRows.length + snapshot.hiddenRows.length + snapshot.laterRows.length =
      snapshot.messages.length := by
  have hall : ∀ rows : List RetentionMessage, (∀ message ∈ rows, message ∈ snapshot.messages) →
      (rows.filter snapshot.isVisibleRow).length + (rows.filter snapshot.isHiddenRow).length +
        (rows.filter snapshot.isLaterRow).length = rows.length := by
    intro rows
    induction rows with
    | nil => exact fun _ => rfl
    | cons message rows ih =>
      intro hrows
      have hrest := ih fun other hother => hrows other (mem_cons_of_mem _ hother)
      simp only [filter_cons, length_cons]
      rcases row_kind hplan (hrows message mem_cons_self) with h | h | h <;>
      · simp only [h, Bool.false_eq_true, if_true, if_false, length_cons]
        omega
  exact hall snapshot.messages fun _ h => h

theorem newerVisible_eq (hplan : planGroupRetention snapshot policy = some plan) (n : Int) :
    snapshot.newerVisible n = newer snapshot.visibleAt snapshot.watermark n := by
  apply countP_eq_newer (visibleRows_nodup (plannable_of_plan hplan).distinct)
  intro k
  rw [visibleAt_isSome_iff]
  constructor
  · rintro ⟨row, hrow, rfl⟩
    exact ⟨visibleRows_le_watermark hrow, row, hrow, rfl⟩
  rintro ⟨_, hrow⟩
  exact hrow

theorem kept_rows (hplan : planGroupRetention snapshot policy = some plan) (n : Int) :
    n ∈ plan.kept ↔ ∃ message ∈ snapshot.visibleRows, message.seq = n ∧
      (snapshot.serverTime - (normalizeRetentionPolicy policy).window ≤ message.sendTime ∨
        (snapshot.newerVisible n : Int) < (normalizeRetentionPolicy policy).maxMessages) := by
  have hpos := normalizeRetentionPolicy_count_pos policy
  have hcount : ∀ count : ℕ, (count : Int) < (normalizeRetentionPolicy policy).maxMessages ↔
      count < (snapshot.rule policy).quota := by
    intro count
    simp only [RetentionSnapshot.rule, RetentionPolicy.rule]
    omega
  rw [kept_iff hplan n, hcount, newerVisible_eq hplan]
  constructor
  · rintro ⟨t, ht, hkeep⟩
    obtain ⟨message, hmsg, hseq, rfl⟩ :=
      (visibleAt_eq_some_iff (plannable_of_plan hplan).distinct).mp ht
    exact ⟨message, hmsg, hseq, hkeep⟩
  rintro ⟨message, hmsg, hseq, hkeep⟩
  exact ⟨message.sendTime, (visibleAt_eq_some_iff (plannable_of_plan hplan).distinct).mpr
    ⟨message, hmsg, hseq, rfl⟩, hkeep⟩

theorem visible_of_listed (hplan : planGroupRetention snapshot policy = some plan) (hmsg : message ∈ snapshot.messages)
    (hlisted : message.seq ∈ plan.kept ∨
      ∃ candidate ∈ plan.candidates, candidate.seq = message.seq) :
    snapshot.isVisibleRow message = true := by
  have hsome : (snapshot.visibleAt message.seq).isSome := by
    rcases hlisted with hkept | hcand
    · exact ((kept_iff hplan _).mp hkept).isSome
    exact ((candidates_iff hplan _).mp hcand).isSome
  obtain ⟨row, hrow, hseq⟩ := visibleAt_isSome_iff.mp hsome
  obtain ⟨hmem, hvis⟩ := mem_filter.mp hrow
  have heq : row = message :=
    inj_on_of_nodup_map (plannable_of_plan hplan).distinct hmem hmsg hseq
  rw [← heq]
  exact hvis

theorem share_unique (hplan : planGroupRetention snapshot policy = some plan) (hmsg : message ∈ snapshot.messages) :
    ∃! share, plan.Puts snapshot message share := by
  have hhidden : plan.Puts snapshot message .hidden ↔ snapshot.isHiddenRow message = true :=
    mem_filter.trans (and_iff_right hmsg)
  have hlater : plan.Puts snapshot message .afterWatermark ↔
      snapshot.isLaterRow message = true :=
    mem_filter.trans (and_iff_right hmsg)
  have hkept : plan.Puts snapshot message .kept → snapshot.isVisibleRow message = true :=
    fun h => visible_of_listed hplan hmsg (.inl h)
  have hcand : plan.Puts snapshot message .candidate →
      snapshot.isVisibleRow message = true :=
    fun h => visible_of_listed hplan hmsg (.inr h)
  rcases row_kind hplan hmsg with h | h | h
  · have hsome : (snapshot.visibleAt message.seq).isSome :=
      visibleAt_isSome_iff.mpr ⟨message, mem_filter.mpr ⟨hmsg, h.1⟩, rfl⟩
    obtain ⟨t, ht⟩ := isSome_iff_exists.mp hsome
    have hkind : Retained (snapshot.rule policy) snapshot.visibleAt snapshot.watermark message.seq ∨
        Removable (snapshot.rule policy) snapshot.visibleAt snapshot.watermark message.seq :=
      retained_or_removable ht
    rcases hkind with hret | hremovable
    · refine ⟨.kept, (kept_iff hplan _).mpr hret, ?_⟩
      intro share hshare
      cases share with
      | kept => rfl
      | candidate =>
        exact absurd ((candidates_iff hplan _).mp hshare)
          (not_removable_of_retained hret)
      | hidden => rw [hhidden, h.2.1] at hshare; cases hshare
      | afterWatermark => rw [hlater, h.2.2] at hshare; cases hshare
    refine ⟨.candidate, (candidates_iff hplan _).mpr hremovable, ?_⟩
    intro share hshare
    cases share with
    | kept =>
      exact absurd hremovable (not_removable_of_retained ((kept_iff hplan _).mp hshare))
    | candidate => rfl
    | hidden => rw [hhidden, h.2.1] at hshare; cases hshare
    | afterWatermark => rw [hlater, h.2.2] at hshare; cases hshare
  · refine ⟨.hidden, hhidden.mpr h.2.1, ?_⟩
    intro share hshare
    cases share with
    | kept => rw [hkept hshare] at h; cases h.1
    | candidate => rw [hcand hshare] at h; cases h.1
    | hidden => rfl
    | afterWatermark => rw [hlater, h.2.2] at hshare; cases hshare
  refine ⟨.afterWatermark, hlater.mpr h.2.2, ?_⟩
  intro share hshare
  cases share with
  | kept => rw [hkept hshare] at h; cases h.1
  | candidate => rw [hcand hshare] at h; cases h.1
  | hidden => rw [hhidden, h.2.1] at hshare; cases hshare
  | afterWatermark => rfl

theorem listed_once (hplan : planGroupRetention snapshot policy = some plan) :
    (plan.kept ++ plan.candidates.map RetentionCandidate.seq).Nodup := by
  have hdist := (plannable_of_plan hplan).distinct
  have hcands : (plan.candidates.map RetentionCandidate.seq).Nodup := by
    obtain ⟨scan, hvis, rfl⟩ := planGroupRetention_eq hplan
    have hranked : ((rankedRows snapshot (normalizeRetentionPolicy policy) scan.visible).map
        RetentionCandidate.seq).Nodup := by
      rw [rankedRows_seq, hvis]
      exact ((newestFirst_perm _ _).map _).nodup_iff.mpr (visibleRows_nodup hdist)
    apply ((perm_insertionSort _ _).map _).nodup_iff.mpr
    exact hranked.sublist (filter_sublist.map _)
  have hkept : plan.kept.Nodup := (kept_sorted hplan).imp fun hlt => ne_of_lt hlt
  apply nodup_append.mpr
  refine ⟨hkept, hcands, ?_⟩
  rintro n hn m hm rfl
  obtain ⟨candidate, hcand, hseq⟩ := List.mem_map.mp hm
  exact not_removable_of_retained ((kept_iff hplan n).mp hn)
    ((candidates_iff hplan n).mp ⟨candidate, hcand, hseq⟩)

theorem plan_overCount (hplan : planGroupRetention snapshot policy = some plan) :
    plan.overCountThrough = snapshot.overCountThrough := by
  obtain ⟨scan, _, rfl⟩ := planGroupRetention_eq hplan
  rfl

theorem boundary_of_candidates (hplan : planGroupRetention snapshot policy = some plan)
    (hwhole : snapshot.overCountThrough = 0) (hcands : plan.candidates ≠ []) :
    ∃ first ∈ plan.kept, 0 < first ∧ (∀ n ∈ plan.kept, first ≤ n) ∧ retentionMinSeq plan =
        if ∀ candidate ∈ plan.candidates, candidate.seq < first then some first else none := by
  obtain ⟨first, hfirst, hleast, hres⟩ :=
    retentionMinSeq_of_work hplan fun hwork => hcands hwork.1
  have hrange := (visibleAt_range hplan ((kept_iff hplan first).mp hfirst).isSome).1
  rw [hwhole] at hrange
  exact ⟨first, hfirst, hrange, hleast, hres⟩

theorem boundary_zero_iff (hplan : planGroupRetention snapshot policy = some plan)
    (hwhole : snapshot.overCountThrough = 0) :
    retentionMinSeq plan = some 0 ↔ plan.candidates = [] := by
  constructor
  · intro hzero
    by_contra hcands
    obtain ⟨first, _, hpos, _, hres⟩ := boundary_of_candidates hplan hwhole hcands
    rw [hres] at hzero
    split at hzero
    · have := some.inj hzero
      omega
    cases hzero
  intro hcands
  exact retentionMinSeq_of_no_work hplan ⟨hcands, (plan_overCount hplan).trans hwhole⟩

theorem boundary_between (hplan : planGroupRetention snapshot policy = some plan)
    (hwhole : snapshot.overCountThrough = 0) {boundary : Int}
    (hbound : retentionMinSeq plan = some boundary) (hcands : plan.candidates ≠ []) :
    (∀ n ∈ plan.kept, boundary ≤ n) ∧ ∀ candidate ∈ plan.candidates, candidate.seq < boundary := by
  obtain ⟨first, _, _, hleast, hres⟩ := boundary_of_candidates hplan hwhole hcands
  rw [hres] at hbound
  split at hbound
  case isTrue hbelow =>
    cases hbound
    exact ⟨hleast, hbelow⟩
  case isFalse => cases hbound

theorem boundary_refused_iff (hplan : planGroupRetention snapshot policy = some plan)
    (hwhole : snapshot.overCountThrough = 0) : retentionMinSeq plan = none ↔
      ∃ candidate ∈ plan.candidates, ∃ n ∈ plan.kept, n < candidate.seq := by
  constructor
  · intro hnone
    have hcands : plan.candidates ≠ [] := by
      intro hempty
      rw [(boundary_zero_iff hplan hwhole).mpr hempty] at hnone
      cases hnone
    obtain ⟨first, hfirst, _, _, hres⟩ := boundary_of_candidates hplan hwhole hcands
    rw [hres] at hnone
    split at hnone
    · cases hnone
    case isFalse hcross =>
      push Not at hcross
      obtain ⟨candidate, hcand, hle⟩ := hcross
      refine ⟨candidate, hcand, first, hfirst, lt_of_le_of_ne hle ?_⟩
      intro heq
      exact not_removable_of_retained ((kept_iff hplan first).mp hfirst)
        ((candidates_iff hplan first).mp ⟨candidate, hcand, heq.symm⟩)
  rintro ⟨candidate, hcand, n, hn, hlt⟩
  obtain ⟨first, _, _, hleast, hres⟩ :=
    boundary_of_candidates hplan hwhole (ne_nil_of_mem hcand)
  rw [hres, if_neg]
  intro hbelow
  have hfirst := hleast n hn
  have hcandidateFirst := hbelow candidate hcand
  omega

variable {rows : List RetentionMessage}

theorem plannable_of_perm (h : snapshot.Plannable policy) (hperm : rows.Perm snapshot.messages) :
    { snapshot with messages := rows }.Plannable policy where
  header := ⟨h.header.session, h.header.conversation, h.header.named, h.header.served,
    h.header.watermarkMin, h.header.watermarkMax, h.header.prefixMin, h.header.prefixMax,
    h.header.complete⟩
  rows message hmsg := by
    have haccepts := h.rows message (hperm.mem_iff.mp hmsg)
    exact ⟨haccepts.afterPrefix, haccepts.belowLimit, haccepts.classified, haccepts.timed⟩
  distinct := (hperm.map _).nodup_iff.mpr h.distinct
  proven hsummary := by
    have hlen : (RetentionSnapshot.visibleRows { snapshot with messages := rows }).length =
        snapshot.visibleRows.length := (hperm.filter snapshot.isVisibleRow).length_eq
    rw [hlen]
    exact h.proven hsummary

theorem newestFirst_perm_eq {left right : List RetentionMessage} (hperm : left.Perm right)
    (hnodup : (right.map RetentionMessage.seq).Nodup) :
    newestFirst RetentionMessage.seq left = newestFirst RetentionMessage.seq right := by
  have hsorted : (newestFirst RetentionMessage.seq left).Perm
      (newestFirst RetentionMessage.seq right) :=
    (newestFirst_perm _ left).trans (hperm.trans (newestFirst_perm _ right).symm)
  apply hsorted.eq_of_pairwise _ (newestFirst_strict ((hperm.map _).nodup_iff.mpr hnodup))
    (newestFirst_strict hnodup)
  intro a b _ _ hab hba
  omega

theorem planGroupRetention_perm (policy : RetentionPolicy) (hperm : rows.Perm snapshot.messages) :
    planGroupRetention { snapshot with messages := rows } policy =
      planGroupRetention snapshot policy := by
  cases hplan : planGroupRetention snapshot policy with
  | none =>
    rw [← not_isSome_iff_eq_none, planGroupRetention_isSome_iff] at hplan ⊢
    intro hrows
    exact hplan (@plannable_of_perm { snapshot with messages := rows } policy _ hrows hperm.symm)
  | some plan =>
    have hsome := planGroupRetention_isSome_iff.mpr
      (plannable_of_perm (plannable_of_plan hplan) hperm)
    obtain ⟨other, hother⟩ := isSome_iff_exists.mp hsome
    rw [hother, some.injEq]
    have hcounts := plan_counts hplan
    have hotherCounts := plan_counts hother
    have hhidden := (hperm.filter snapshot.isHiddenRow).length_eq
    have hlater := (hperm.filter snapshot.isLaterRow).length_eq
    have hranked : newestFirst RetentionMessage.seq
          (RetentionSnapshot.visibleRows { snapshot with messages := rows }) =
        newestFirst RetentionMessage.seq snapshot.visibleRows :=
      newestFirst_perm_eq (hperm.filter snapshot.isVisibleRow)
        (visibleRows_nodup (plannable_of_plan hplan).distinct)
    have hhiddenCount : other.hiddenCount = plan.hiddenCount :=
      hotherCounts.1.trans (hhidden.trans hcounts.1.symm)
    have hlaterCount : other.afterWatermarkCount = plan.afterWatermarkCount :=
      hotherCounts.2.trans (hlater.trans hcounts.2.symm)
    obtain ⟨scan, hvis, rfl⟩ := planGroupRetention_eq hplan
    obtain ⟨scan', hvisible', rfl⟩ := planGroupRetention_eq hother
    simp only [rankedPlan] at hhiddenCount hlaterCount
    simp only [rankedPlan, rankedRows, hvis, hvisible', hranked, hhiddenCount, hlaterCount]

/-- Without a summarized prefix a plan is exact, and rows in another order give the same. -/
theorem planGroupRetention_exact (snapshot : RetentionSnapshot) (policy : RetentionPolicy)
    (hwhole : snapshot.overCountThrough = 0) :
    (∀ plan, planGroupRetention snapshot policy = some plan → ExactPlan snapshot policy plan) ∧
      ∀ rows : List RetentionMessage, rows.Perm snapshot.messages →
        planGroupRetention { snapshot with messages := rows } policy =
          planGroupRetention snapshot policy := by
  constructor
  · intro plan hplan
    have hcounts := plan_counts hplan
    have hlisted := plan_rows_length hplan
    have hrows := rows_length hplan
    exact
      { share := fun message hmsg => share_unique hplan hmsg
        once := listed_once hplan
        hidden := hcounts.1
        later := hcounts.2
        total := by omega
        kept := kept_rows hplan
        nothing := boundary_zero_iff hplan hwhole
        between := fun boundary hbound hcands =>
          boundary_between hplan hwhole hbound hcands
        refused := boundary_refused_iff hplan hwhole }
  intro rows hperm
  exact planGroupRetention_perm policy hperm

end

/-- A quota of one, an old row below a recent one, a hidden row and a later one. -/
def mixedRows : RetentionSnapshot where
  snapshotID := []
  conversationID := "sg_a".toList
  sessionType := groupSession
  serverTime := 10 * hour
  watermark := 3
  overCountThrough := 0
  complete := true
  messages := [⟨4, 0, .visible⟩, ⟨3, 10 * hour, .visible⟩, ⟨2, 0, .hidden⟩, ⟨1, 1, .visible⟩]

theorem mixedRows_exact :
    ∃ plan, ExactPlan mixedRows ⟨1, hour⟩ plan ∧ retentionMinSeq plan = some 3 := by
  have hplan : (planGroupRetention mixedRows ⟨1, hour⟩).isSome := by decide
  obtain ⟨plan, hplan⟩ := isSome_iff_exists.mp hplan
  refine ⟨plan, (planGroupRetention_exact mixedRows ⟨1, hour⟩ rfl).1 plan hplan, ?_⟩
  have hbound : (planGroupRetention mixedRows ⟨1, hour⟩).bind retentionMinSeq = some 3 := by
    decide
  rw [hplan] at hbound
  exact hbound

end ImApp.Retention
