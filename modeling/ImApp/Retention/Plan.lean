import ImApp.Retention.Policy
import Mathlib.Data.Int.Interval

/-!
Planning a group's retention from one snapshot. The planner rejects what it
cannot classify, ranks the visible rows by sequence and splits them into kept
rows and removal candidates. The two lists are exactly the retained and the
removable rows of the union rule over the snapshot's visible rows.
-/

namespace ImApp.Retention

open JsonText (Text)
open KeepNewest List Option

def conversationPrefix : Text := ['s', 'g', '_']

def groupSession : Text := ['g', 'r', 'o', 'u', 'p']

def previewOnly : Text := "preview_only".toList

/-- The header checks of the planner. -/
structure RetentionSnapshot.WellFormed (snapshot : RetentionSnapshot) : Prop where
  session : snapshot.sessionType = groupSession
  conversation : conversationPrefix <+: snapshot.conversationID
  named : 3 < snapshot.conversationID.length
  served : snapshot.serverTime ≠ zeroTime
  watermarkMin : 0 ≤ snapshot.watermark
  watermarkMax : snapshot.watermark < seqLimit
  prefixMin : 0 ≤ snapshot.overCountThrough
  prefixMax : 0 < snapshot.overCountThrough → snapshot.overCountThrough < snapshot.watermark
  complete : snapshot.complete = true

def RetentionSnapshot.headerRejected (snapshot : RetentionSnapshot) : Bool :=
  snapshot.sessionType ≠ groupSession || !conversationPrefix.isPrefixOf snapshot.conversationID ||
    snapshot.conversationID.length ≤ 3 || snapshot.serverTime = zeroTime ||
    snapshot.watermark < 0 || seqLimit ≤ snapshot.watermark ||
    snapshot.overCountThrough < 0 ||
    (0 < snapshot.overCountThrough && snapshot.watermark ≤ snapshot.overCountThrough) ||
    !snapshot.complete

structure PlanScan where
  seen : List Int
  visible : List RetentionMessage
  hiddenCount : Nat
  afterWatermarkCount : Nat

def PlanScan.empty : PlanScan := ⟨[], [], 0, 0⟩

def scanMessage (snapshot : RetentionSnapshot) (scan : PlanScan) (message : RetentionMessage) :
    Option PlanScan :=
  if message.seq ≤ snapshot.overCountThrough ∨ seqLimit ≤ message.seq ∨
      message.seq ∈ scan.seen then none
  else
    let scan := { scan with seen := message.seq :: scan.seen }
    if snapshot.watermark < message.seq then
      some { scan with afterWatermarkCount := scan.afterWatermarkCount + 1 }
    else match message.visibility with
      | .hidden => some { scan with hiddenCount := scan.hiddenCount + 1 }
      | .visible =>
        if message.sendTime = zeroTime ∨ snapshot.serverTime < message.sendTime then none
        else some { scan with visible := scan.visible ++ [message] }
      | .other _ => none

def candidateOf (policy : RetentionPolicy) (cutoff : Time) (ranked : RetentionMessage × Nat) :
    RetentionCandidate where
  seq := ranked.1.seq
  overAge := ranked.1.sendTime < cutoff
  overCount := policy.maxMessages ≤ ranked.2

def RetentionCandidate.removed (candidate : RetentionCandidate) : Bool :=
  candidate.overAge && candidate.overCount

def rankedRows (snapshot : RetentionSnapshot) (policy : RetentionPolicy)
    (visible : List RetentionMessage) : List RetentionCandidate :=
  (newestFirst RetentionMessage.seq visible).zipIdx.map
    (candidateOf policy (snapshot.serverTime - policy.window))

/-- The plan of the scanned rows under a normalized policy. -/
def rankedPlan (snapshot : RetentionSnapshot) (policy : RetentionPolicy) (scan : PlanScan) :
    RetentionPlan where
  snapshotID := snapshot.snapshotID
  mode := previewOnly
  conversationID := snapshot.conversationID
  serverTime := snapshot.serverTime
  cutoff := snapshot.serverTime - policy.window
  watermark := snapshot.watermark
  maxMessages := policy.maxMessages
  overCountThrough := snapshot.overCountThrough
  kept := (((rankedRows snapshot policy scan.visible).filter (fun c => !c.removed)).map
    RetentionCandidate.seq).insertionSort (· ≤ ·)
  candidates := ((rankedRows snapshot policy scan.visible).filter
    RetentionCandidate.removed).insertionSort (fun a b => a.seq ≤ b.seq)
  hiddenCount := scan.hiddenCount
  afterWatermarkCount := scan.afterWatermarkCount

/-- Deterministic and read-only. Counts actual visible rows. -/
def planGroupRetention (snapshot : RetentionSnapshot) (policy : RetentionPolicy) :
    Option RetentionPlan :=
  let policy := normalizeRetentionPolicy policy
  if snapshot.headerRejected then none
  else (snapshot.messages.foldlM (scanMessage snapshot) PlanScan.empty).bind fun scan =>
    if 0 < snapshot.overCountThrough ∧ (scan.visible.length : Int) < policy.maxMessages then none
    else some (rankedPlan snapshot policy scan)

theorem headerRejected_eq_false_iff (snapshot : RetentionSnapshot) :
    snapshot.headerRejected = false ↔ snapshot.WellFormed := by
  unfold RetentionSnapshot.headerRejected
  simp only [Bool.or_eq_false_iff, Bool.and_eq_false_iff, decide_eq_false_iff_not,
    Bool.not_eq_false', isPrefixOf_iff_prefix, not_le, not_lt, ne_eq, not_not]
  constructor
  · rintro ⟨⟨⟨⟨⟨⟨⟨⟨hsess, hconv⟩, hnamed⟩, hserved⟩, hmin⟩, hmax⟩, hsummary⟩, hover⟩, hdone⟩
    refine ⟨hsess, hconv, hnamed, hserved, hmin, hmax, hsummary, ?_, hdone⟩
    intro hpos
    rcases hover with hover | hover
    · omega
    exact hover
  intro h
  refine ⟨⟨⟨⟨⟨⟨⟨⟨h.session, h.conversation⟩, h.named⟩, h.served⟩, h.watermarkMin⟩,
    h.watermarkMax⟩, h.prefixMin⟩, ?_⟩, h.complete⟩
  by_cases hpos : 0 < snapshot.overCountThrough
  · exact .inr (h.prefixMax hpos)
  exact .inl (not_lt.mp hpos)

def RetentionSnapshot.isVisibleRow (snapshot : RetentionSnapshot) (message : RetentionMessage) :
    Bool :=
  message.seq ≤ snapshot.watermark && message.visibility = .visible

def RetentionSnapshot.visibleRows (snapshot : RetentionSnapshot) : List RetentionMessage :=
  snapshot.messages.filter snapshot.isVisibleRow

/-- The send time of the visible row `n`. -/
def RetentionSnapshot.visibleAt (snapshot : RetentionSnapshot) (n : Int) : Option Time :=
  (snapshot.visibleRows.find? (fun message => message.seq = n)).map RetentionMessage.sendTime

/-- What the planner asks of one row. -/
structure RetentionSnapshot.AcceptsRow (snapshot : RetentionSnapshot)
    (message : RetentionMessage) : Prop where
  afterPrefix : snapshot.overCountThrough < message.seq
  belowLimit : message.seq < seqLimit
  classified : message.seq ≤ snapshot.watermark →
    message.visibility = .visible ∨ message.visibility = .hidden
  timed : message.seq ≤ snapshot.watermark → message.visibility = .visible →
    message.sendTime ≠ zeroTime ∧ message.sendTime ≤ snapshot.serverTime

variable {message : RetentionMessage}

theorem scanMessage_accepts {snapshot : RetentionSnapshot} {scan next : PlanScan}
 (hscan : scanMessage snapshot scan message = some next) :
    snapshot.AcceptsRow message ∧ message.seq ∉ scan.seen ∧ next.seen = message.seq :: scan.seen ∧
      next.visible = scan.visible ++ [message].filter snapshot.isVisibleRow := by
  unfold scanMessage at hscan
  by_cases hrange : message.seq ≤ snapshot.overCountThrough ∨ seqLimit ≤ message.seq ∨
      message.seq ∈ scan.seen
  · rw [if_pos hrange] at hscan
    cases hscan
  rw [if_neg hrange] at hscan
  push Not at hrange
  obtain ⟨hsummary, hlimit, hseen⟩ := hrange
  by_cases hafter : snapshot.watermark < message.seq
  · simp only [if_pos hafter, some.injEq] at hscan
    subst hscan
    refine ⟨⟨hsummary, hlimit, by omega, by omega⟩, hseen, rfl, ?_⟩
    simp [RetentionSnapshot.isVisibleRow, hafter]
  simp only [if_neg hafter] at hscan
  cases hvisib : message.visibility with
  | hidden =>
    simp only [hvisib, some.injEq] at hscan
    subst hscan
    refine ⟨⟨hsummary, hlimit, by simp [hvisib], by simp [hvisib]⟩, hseen, rfl, ?_⟩
    simp [RetentionSnapshot.isVisibleRow, hvisib]
  | visible =>
    simp only [hvisib] at hscan
    by_cases htime : message.sendTime = zeroTime ∨ snapshot.serverTime < message.sendTime
    · rw [if_pos htime] at hscan
      cases hscan
    rw [if_neg htime, some.injEq] at hscan
    subst hscan
    push Not at htime
    refine ⟨⟨hsummary, hlimit, by simp [hvisib], fun _ _ => htime⟩, hseen, rfl, ?_⟩
    simp [RetentionSnapshot.isVisibleRow, hvisib, not_lt.mp hafter]
  | other text => simp [hvisib] at hscan

theorem exists_scanMessage {snapshot : RetentionSnapshot} {scan : PlanScan}
 (haccepts : snapshot.AcceptsRow message)
    (hseen : message.seq ∉ scan.seen) : ∃ next, scanMessage snapshot scan message = some next := by
  have hrange : ¬ (message.seq ≤ snapshot.overCountThrough ∨ seqLimit ≤ message.seq ∨
      message.seq ∈ scan.seen) := by
    push Not
    exact ⟨haccepts.afterPrefix, haccepts.belowLimit, hseen⟩
  unfold scanMessage
  rw [if_neg hrange]
  by_cases hafter : snapshot.watermark < message.seq
  · simp only [if_pos hafter]
    exact ⟨_, rfl⟩
  simp only [if_neg hafter]
  rcases haccepts.classified (not_lt.mp hafter) with hvis | hhidden
  · obtain ⟨hzero, hserver⟩ := haccepts.timed (not_lt.mp hafter) hvis
    have htime : ¬ (message.sendTime = zeroTime ∨ snapshot.serverTime < message.sendTime) := by
      push Not
      exact ⟨hzero, hserver⟩
    simp only [hvis, if_neg htime]
    exact ⟨_, rfl⟩
  simp only [hhidden]
  exact ⟨_, rfl⟩

theorem scanMessages_accepts {snapshot : RetentionSnapshot} {messages : List RetentionMessage}
    {scan final : PlanScan} (hscan : messages.foldlM (scanMessage snapshot) scan = some final) :
    (∀ message ∈ messages, snapshot.AcceptsRow message ∧ message.seq ∉ scan.seen) ∧
      (messages.map RetentionMessage.seq).Nodup ∧
      final.visible = scan.visible ++ messages.filter snapshot.isVisibleRow := by
  induction messages generalizing scan with
  | nil =>
    simp only [foldlM_nil, Option.pure_def, Option.some.injEq] at hscan
    simp [hscan]
  | cons message rest ih =>
    simp only [foldlM_cons, bind_eq_bind, bind_eq_some_iff] at hscan
    obtain ⟨next, hnext, hrest⟩ := hscan
    obtain ⟨haccepts, hseen, hseenNext, hvis⟩ := scanMessage_accepts hnext
    obtain ⟨hall, hnodup, hfinal⟩ := ih hrest
    have hfresh : ∀ other ∈ rest, other.seq ≠ message.seq ∧ other.seq ∉ scan.seen := by
      intro other hother
      have := (hall other hother).2
      rw [hseenNext, mem_cons, not_or] at this
      exact this
    refine ⟨?_, ?_, ?_⟩
    · intro other hother
      rcases mem_cons.mp hother with rfl | hother
      · exact ⟨haccepts, hseen⟩
      exact ⟨(hall other hother).1, (hfresh other hother).2⟩
    · rw [map_cons, nodup_cons]
      refine ⟨?_, hnodup⟩
      intro hmem
      obtain ⟨other, hother, heq⟩ := List.mem_map.mp hmem
      exact (hfresh other hother).1 heq
    rw [hfinal, hvis, append_assoc, ← filter_append]
    rfl

theorem exists_scanMessages {snapshot : RetentionSnapshot} {messages : List RetentionMessage}
    {scan : PlanScan}
    (haccepts : ∀ message ∈ messages, snapshot.AcceptsRow message ∧ message.seq ∉ scan.seen)
    (hnodup : (messages.map RetentionMessage.seq).Nodup) :
    ∃ final, messages.foldlM (scanMessage snapshot) scan = some final := by
  induction messages generalizing scan with
  | nil => exact ⟨scan, rfl⟩
  | cons message rest ih =>
    obtain ⟨hmsg, hseen⟩ := haccepts message (by simp)
    obtain ⟨next, hnext⟩ := exists_scanMessage hmsg hseen
    obtain ⟨_, _, hseenNext, _⟩ := scanMessage_accepts hnext
    rw [map_cons, nodup_cons] at hnodup
    have hrest : ∀ other ∈ rest, snapshot.AcceptsRow other ∧ other.seq ∉ next.seen := by
      intro other hother
      obtain ⟨hrow, hfresh⟩ := haccepts other (by simp [hother])
      refine ⟨hrow, ?_⟩
      rw [hseenNext, mem_cons, not_or]
      refine ⟨?_, hfresh⟩
      intro heq
      exact hnodup.1 (heq ▸ List.mem_map_of_mem hother)
    obtain ⟨final, hfinal⟩ := ih hrest hnodup.2
    exact ⟨final, by simp [hnext, hfinal]⟩

/-- The rows the planner accepts, with enough visible ones where a prefix is
summarized. -/
structure RetentionSnapshot.Plannable (snapshot : RetentionSnapshot)
    (policy : RetentionPolicy) : Prop where
  header : snapshot.WellFormed
  rows : ∀ message ∈ snapshot.messages, snapshot.AcceptsRow message
  distinct : (snapshot.messages.map RetentionMessage.seq).Nodup
  proven : 0 < snapshot.overCountThrough →
    (normalizeRetentionPolicy policy).maxMessages ≤ snapshot.visibleRows.length

theorem planGroupRetention_isSome_iff {snapshot : RetentionSnapshot} {policy : RetentionPolicy} :
    (planGroupRetention snapshot policy).isSome ↔ snapshot.Plannable policy := by
  unfold planGroupRetention
  constructor
  · intro hsome
    by_cases hheader : snapshot.headerRejected
    · simp [hheader] at hsome
    rw [if_neg hheader] at hsome
    cases hscan : snapshot.messages.foldlM (scanMessage snapshot) PlanScan.empty with
    | none => simp [hscan] at hsome
    | some scan =>
      obtain ⟨hrows, hnodup, hvis⟩ := scanMessages_accepts hscan
      refine ⟨(headerRejected_eq_false_iff snapshot).mp (by simpa using hheader),
        fun message hmsg => (hrows message hmsg).1, hnodup, ?_⟩
      intro hsummary
      have hrowsVisible : scan.visible = snapshot.visibleRows := hvis
      by_contra hfew
      rw [← hrowsVisible, not_le] at hfew
      simp [hscan, hsummary, hfew] at hsome
  rintro ⟨hheader, hrows, hnodup, hproven⟩
  have hrej : ¬ snapshot.headerRejected := by
    simpa using (headerRejected_eq_false_iff snapshot).mpr hheader
  have hfresh : ∀ message ∈ snapshot.messages, snapshot.AcceptsRow message ∧
      message.seq ∉ PlanScan.empty.seen := by
    intro message hmsg
    exact ⟨hrows message hmsg, by simp [PlanScan.empty]⟩
  obtain ⟨scan, hscan⟩ := exists_scanMessages hfresh hnodup
  have hvis : scan.visible = snapshot.visibleRows := (scanMessages_accepts hscan).2.2
  have henough : ¬ (0 < snapshot.overCountThrough ∧
      (scan.visible.length : Int) < (normalizeRetentionPolicy policy).maxMessages) := by
    rintro ⟨hsummary, hfew⟩
    rw [hvis] at hfew
    exact absurd (hproven hsummary) (not_le.mpr hfew)
  rw [if_neg hrej, hscan]
  simp [henough]

theorem planGroupRetention_eq {snapshot : RetentionSnapshot} {policy : RetentionPolicy}
    {plan : RetentionPlan} (hplan : planGroupRetention snapshot policy = some plan) :
    ∃ scan, scan.visible = snapshot.visibleRows ∧
      plan = rankedPlan snapshot (normalizeRetentionPolicy policy) scan := by
  unfold planGroupRetention at hplan
  by_cases hheader : snapshot.headerRejected
  · simp [hheader] at hplan
  rw [if_neg hheader, bind_eq_some_iff] at hplan
  obtain ⟨scan, hscan, hplan⟩ := hplan
  refine ⟨scan, (scanMessages_accepts hscan).2.2, ?_⟩
  split at hplan
  · cases hplan
  exact (some.inj hplan).symm

theorem plannable_of_plan {snapshot : RetentionSnapshot} {policy : RetentionPolicy}
    {plan : RetentionPlan} (hplan : planGroupRetention snapshot policy = some plan) :
    snapshot.Plannable policy :=
  planGroupRetention_isSome_iff.mp (by simp [hplan])

section Rows

variable {snapshot : RetentionSnapshot}

theorem visibleRows_nodup (hdist : (snapshot.messages.map RetentionMessage.seq).Nodup) :
    (snapshot.visibleRows.map RetentionMessage.seq).Nodup :=
  hdist.sublist (filter_sublist.map _)

theorem visibleAt_isSome_iff {n : Int} :
    (snapshot.visibleAt n).isSome ↔ ∃ message ∈ snapshot.visibleRows, message.seq = n := by
  unfold RetentionSnapshot.visibleAt
  rw [isSome_map, find?_isSome]
  simp

theorem visibleAt_eq_some_iff (hdist : (snapshot.messages.map RetentionMessage.seq).Nodup)
    {n : Int} {t : Time} : snapshot.visibleAt n = some t ↔
      ∃ message ∈ snapshot.visibleRows, message.seq = n ∧ message.sendTime = t := by
  unfold RetentionSnapshot.visibleAt
  rw [map_eq_some_iff]
  constructor
  · rintro ⟨message, hfind, htime⟩
    refine ⟨message, mem_of_find?_eq_some hfind, ?_, htime⟩
    simpa using find?_some hfind
  rintro ⟨message, hmem, hseq, htime⟩
  have hsome : (snapshot.visibleRows.find? (fun row => row.seq = n)).isSome := by
    rw [find?_isSome]
    exact ⟨message, hmem, by simpa using hseq⟩
  obtain ⟨found, hfound⟩ := isSome_iff_exists.mp hsome
  refine ⟨found, hfound, ?_⟩
  have hfoundSeq : found.seq = n := by simpa using find?_some hfound
  have heq : found = message :=
    inj_on_of_nodup_map (visibleRows_nodup hdist) (mem_of_find?_eq_some hfound)
      hmem (hfoundSeq.trans hseq.symm)
  rw [heq, htime]

theorem visibleRows_le_watermark
    (hmem : message ∈ snapshot.visibleRows) : message.seq ≤ snapshot.watermark := by
  have := (mem_filter.mp hmem).2
  simp only [RetentionSnapshot.isVisibleRow, Bool.and_eq_true, decide_eq_true_eq] at this
  exact this.1

theorem rankedRows_mem (hdist : (snapshot.messages.map RetentionMessage.seq).Nodup)
    (policy : RetentionPolicy) (candidate : RetentionCandidate) :
    candidate ∈ rankedRows snapshot policy snapshot.visibleRows ↔
      ∃ message ∈ snapshot.visibleRows, candidate = candidateOf policy
        (snapshot.serverTime - policy.window)
        (message, newer snapshot.visibleAt snapshot.watermark message.seq) := by
  have hnodup := visibleRows_nodup hdist
  have hrank : ∀ message rank, (message, rank) ∈
      (newestFirst RetentionMessage.seq snapshot.visibleRows).zipIdx →
      rank = newer snapshot.visibleAt snapshot.watermark message.seq := by
    intro message rank hmem
    rw [rank_eq_countP (newestFirst_strict hnodup) hmem, Nat.zero_add,
      (newestFirst_perm _ _).countP_eq]
    apply countP_eq_newer hnodup
    intro n
    rw [visibleAt_isSome_iff]
    constructor
    · rintro ⟨row, hrow, rfl⟩
      exact ⟨visibleRows_le_watermark hrow, row, hrow, rfl⟩
    rintro ⟨_, hrow⟩
    exact hrow
  unfold rankedRows
  rw [List.mem_map]
  constructor
  · rintro ⟨⟨message, rank⟩, hmem, rfl⟩
    refine ⟨message, ?_, ?_⟩
    · obtain ⟨_, _, hget⟩ := mem_zipIdx hmem
      rw [hget]
      exact (newestFirst_perm RetentionMessage.seq _).mem_iff.mp (getElem_mem _)
    rw [hrank message rank hmem]
  rintro ⟨message, hmsg, rfl⟩
  have hranked : message ∈ newestFirst RetentionMessage.seq snapshot.visibleRows :=
    mem_newestFirst.mpr hmsg
  obtain ⟨rank, hmem⟩ := exists_rank hranked 0
  exact ⟨(message, rank), hmem, by rw [hrank message rank hmem]⟩

end Rows

section Plans

variable {snapshot : RetentionSnapshot} {policy : RetentionPolicy} {plan : RetentionPlan}

/-- The union rule that a plan applies. -/
def RetentionSnapshot.rule (snapshot : RetentionSnapshot) (policy : RetentionPolicy) : Rule Time :=
  (normalizeRetentionPolicy policy).rule snapshot.serverTime

theorem candidateOf_removed_iff {serverTime : Time} {rank : ℕ} :
    (candidateOf policy (serverTime - policy.window) (message, rank)).removed = true ↔
      message.sendTime < (policy.rule serverTime).cutoff ∧ (policy.rule serverTime).quota ≤ rank := by
  simp only [RetentionCandidate.removed, candidateOf, Bool.and_eq_true, decide_eq_true_eq,
    RetentionPolicy.rule, Int.toNat_le]

section

variable (hplan : planGroupRetention snapshot policy = some plan)
include hplan

theorem kept_iff (n : Int) :
    n ∈ plan.kept ↔ Retained (snapshot.rule policy) snapshot.visibleAt snapshot.watermark n := by
  have hdist := (plannable_of_plan hplan).distinct
  obtain ⟨scan, hvis, rfl⟩ := planGroupRetention_eq hplan
  simp only [rankedPlan, mem_insertionSort, List.mem_map, mem_filter, hvis,
    rankedRows_mem hdist, Bool.not_eq_true', Bool.eq_false_iff, ne_eq]
  constructor
  · rintro ⟨candidate, ⟨⟨message, hmsg, rfl⟩, hkept⟩, rfl⟩
    rw [candidateOf_removed_iff, not_and_or, not_lt, not_le] at hkept
    exact ⟨message.sendTime, (visibleAt_eq_some_iff hdist).mpr ⟨message, hmsg, rfl, rfl⟩, hkept⟩
  rintro ⟨t, ht, hkept⟩
  obtain ⟨message, hmsg, rfl, rfl⟩ := (visibleAt_eq_some_iff hdist).mp ht
  refine ⟨_, ⟨⟨message, hmsg, rfl⟩, ?_⟩, rfl⟩
  rw [candidateOf_removed_iff, not_and_or, not_lt, not_le]
  exact hkept

theorem candidates_iff (n : Int) : (∃ candidate ∈ plan.candidates, candidate.seq = n) ↔
      Removable (snapshot.rule policy) snapshot.visibleAt snapshot.watermark n := by
  have hdist := (plannable_of_plan hplan).distinct
  obtain ⟨scan, hvis, rfl⟩ := planGroupRetention_eq hplan
  simp only [rankedPlan, mem_insertionSort, mem_filter, hvis, rankedRows_mem hdist]
  constructor
  · rintro ⟨candidate, ⟨⟨message, hmsg, rfl⟩, hremoved⟩, rfl⟩
    obtain ⟨hold, hcount⟩ := candidateOf_removed_iff.mp hremoved
    exact ⟨message.sendTime, (visibleAt_eq_some_iff hdist).mpr ⟨message, hmsg, rfl, rfl⟩,
      hold, hcount⟩
  rintro ⟨t, ht, hold, hcount⟩
  obtain ⟨message, hmsg, rfl, rfl⟩ := (visibleAt_eq_some_iff hdist).mp ht
  exact ⟨_, ⟨⟨message, hmsg, rfl⟩, candidateOf_removed_iff.mpr ⟨hold, hcount⟩⟩, rfl⟩

theorem candidates_removed {candidate : RetentionCandidate} (hmem : candidate ∈ plan.candidates) :
    candidate.overAge = true ∧ candidate.overCount = true := by
  obtain ⟨scan, hvis, rfl⟩ := planGroupRetention_eq hplan
  simp only [rankedPlan, mem_insertionSort, mem_filter, RetentionCandidate.removed,
    Bool.and_eq_true] at hmem
  exact hmem.2

end

theorem rankedRows_seq (rows : List RetentionMessage) :
    (rankedRows snapshot policy rows).map RetentionCandidate.seq =
      (newestFirst RetentionMessage.seq rows).map RetentionMessage.seq := by
  unfold rankedRows
  rw [List.map_map]
  calc
    _ = ((newestFirst RetentionMessage.seq rows).zipIdx.map Prod.fst).map RetentionMessage.seq := by
        rw [List.map_map]
        rfl
    _ = _ := by rw [zipIdx_map_fst]

theorem kept_sorted (hplan : planGroupRetention snapshot policy = some plan) :
    plan.kept.Pairwise (· < ·) := by
  have hdist := (plannable_of_plan hplan).distinct
  obtain ⟨scan, hvis, rfl⟩ := planGroupRetention_eq hplan
  have hnodup : ((rankedRows snapshot (normalizeRetentionPolicy policy) scan.visible).map
      RetentionCandidate.seq).Nodup := by
    rw [rankedRows_seq, hvis]
    exact ((newestFirst_perm _ _).map _).nodup_iff.mpr (visibleRows_nodup hdist)
  have hkept : (rankedPlan snapshot (normalizeRetentionPolicy policy) scan).kept.Nodup := by
    refine (perm_insertionSort _ _).nodup_iff.mpr ?_
    exact hnodup.sublist (filter_sublist.map _)
  have hle : (rankedPlan snapshot (normalizeRetentionPolicy policy) scan).kept.Pairwise
      (· ≤ ·) := pairwise_insertionSort _ _
  exact (hle.and hkept).imp (fun h => lt_of_le_of_ne h.1 h.2)

theorem plan_rows_length (hplan : planGroupRetention snapshot policy = some plan) :
    plan.kept.length + plan.candidates.length = snapshot.visibleRows.length := by
  obtain ⟨scan, hvis, rfl⟩ := planGroupRetention_eq hplan
  have hsplit := length_eq_length_filter_add (l := rankedRows snapshot
    (normalizeRetentionPolicy policy) scan.visible) RetentionCandidate.removed
  have hlen : (rankedRows snapshot (normalizeRetentionPolicy policy) scan.visible).length =
      snapshot.visibleRows.length := by
    rw [← hvis]
    unfold rankedRows
    rw [length_map, length_zipIdx, (newestFirst_perm _ _).length_eq]
  simp only [rankedPlan, length_insertionSort, length_map]
  omega

end Plans

end ImApp.Retention
