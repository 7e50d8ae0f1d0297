import ImApp.Retention.Snapshot

/-!
From a scan to its plan. The visible rows of a scanned snapshot are those of the
history above the scan's end, so the planner ranks them as the history does. A
scan that stopped has proven the quota, and its plan is always a prefix.
-/

namespace ImApp.Retention

open JsonText (Text)
open KeepNewest List Option

/-- The rows above `low` hold what the planner accepts at `serverTime`. -/
def SentBy (documents : Documents) (groupID : Text) (serverTime : Time) (low watermark : Int) :
    Prop :=
  ∀ k t, low < k → k ≤ watermark → documents.visibleAt groupID k = some t → t ≤ serverTime

section Scanned

variable {groupID : GroupID} {policy : RetentionPolicy} {serverTime : Time} {minSeq : Int}
  {documents : Documents} {watermark low : Int} {snapshotID : Text} {scan : Scan}

section

variable (hreads : scan.Reads (scanRule groupID policy serverTime minSeq) documents watermark low)
include hreads

theorem mem_visibleRows_of_reads {row : RetentionMessage} :
    row ∈ (scannedSnapshot groupID serverTime watermark snapshotID scan).visibleRows ↔
      low < row.seq ∧ row.seq ≤ watermark ∧ documents.row groupID.text row.seq = some row ∧
        row.visibility = .visible := by
  unfold RetentionSnapshot.visibleRows RetentionSnapshot.isVisibleRow scannedSnapshot
  simp only [mem_filter, hreads.mem, Bool.and_eq_true, decide_eq_true_eq, scanRule]
  tauto

theorem visibleAt_of_reads (k : Int) :
    (scannedSnapshot groupID serverTime watermark snapshotID scan).visibleAt k =
      if low < k ∧ k ≤ watermark then documents.visibleAt groupID.text k else none := by
  have hdist : ((scannedSnapshot groupID serverTime watermark snapshotID scan).messages.map
      RetentionMessage.seq).Nodup := hreads.distinct
  ext t
  rw [visibleAt_eq_some_iff hdist]
  constructor
  · rintro ⟨row, hrow, rfl, rfl⟩
    obtain ⟨hlow, hhigh, hpersisted, hvis⟩ := (mem_visibleRows_of_reads hreads).mp hrow
    rw [if_pos ⟨hlow, hhigh⟩, visibleAt_of_row hpersisted, if_pos hvis]
  intro ht
  split at ht
  · rename_i hrange
    obtain ⟨row, hrow, hvis⟩ := bind_eq_some_iff.mp ht
    split at hvis
    · rename_i hvisib
      have hseq := row_seq hrow
      refine ⟨row, (mem_visibleRows_of_reads hreads).mpr ?_, hseq, some.inj hvis⟩
      rw [hseq]
      exact ⟨hrange.1, hrange.2, hrow, hvisib⟩
    cases hvis
  cases ht

theorem newer_of_reads {m : Int} (hm : low ≤ m) :
    newer (scannedSnapshot groupID serverTime watermark snapshotID scan).visibleAt watermark m =
      newer (documents.visibleAt groupID.text) watermark m := by
  apply newer_congr
  intro k hmk hkw
  rw [visibleAt_of_reads hreads, if_pos ⟨lt_of_le_of_lt hm hmk, hkw⟩]

theorem removable_of_reads {rule : Rule Time} {m : Int} (hlow : low < m) (hhigh : m ≤ watermark) :
    Removable rule (scannedSnapshot groupID serverTime watermark snapshotID scan).visibleAt
        watermark m ↔
      Removable rule (documents.visibleAt groupID.text) watermark m := by
  unfold Removable
  rw [newer_of_reads hreads hlow.le, visibleAt_of_reads hreads, if_pos ⟨hlow, hhigh⟩]

theorem retained_of_reads {rule : Rule Time} {m : Int} (hlow : low < m) (hhigh : m ≤ watermark) :
    Retained rule (scannedSnapshot groupID serverTime watermark snapshotID scan).visibleAt
        watermark m ↔
      Retained rule (documents.visibleAt groupID.text) watermark m := by
  unfold Retained
  rw [newer_of_reads hreads hlow.le, visibleAt_of_reads hreads, if_pos ⟨hlow, hhigh⟩]

theorem sentBy_of_plan {plan : RetentionPlan}
    (hplan : planGroupRetention (scannedSnapshot groupID serverTime watermark snapshotID scan)
      policy = some plan) :
    SentBy documents groupID.text serverTime low watermark := by
  intro k t hlow hhigh ht
  have hview : (scannedSnapshot groupID serverTime watermark snapshotID scan).visibleAt k =
      _ := visibleAt_of_reads hreads k
  rw [if_pos ⟨hlow, hhigh⟩, ht] at hview
  have hplannable := plannable_of_plan hplan
  obtain ⟨row, hrow, _, rfl⟩ := (visibleAt_eq_some_iff hplannable.distinct).mp hview
  have hvis := (mem_filter.mp hrow).2
  simp only [RetentionSnapshot.isVisibleRow, Bool.and_eq_true, decide_eq_true_eq] at hvis
  exact ((hplannable.rows row (mem_filter.mp hrow).1).timed hvis.1 hvis.2).2

theorem visibleRows_length_of_reads :
    (scannedSnapshot groupID serverTime watermark snapshotID scan).visibleRows.length =
      newer (documents.visibleAt groupID.text) watermark low := by
  have hdist : ((scannedSnapshot groupID serverTime watermark snapshotID scan).messages.map
      RetentionMessage.seq).Nodup := hreads.distinct
  have hnewer : newer (scannedSnapshot groupID serverTime watermark snapshotID scan).visibleAt
      watermark low = newer (documents.visibleAt groupID.text) watermark low :=
    newer_of_reads hreads le_rfl
  rw [← hnewer, ← countP_eq_newer (visibleRows_nodup hdist) (fun k => ?_), eq_comm,
    countP_eq_length]
  · intro row hrow
    simpa using ((mem_visibleRows_of_reads hreads).mp hrow).1
  rw [visibleAt_isSome_iff]
  constructor
  · rintro ⟨row, hrow, rfl⟩
    exact ⟨((mem_visibleRows_of_reads hreads).mp hrow).2.1, row, hrow, rfl⟩
  rintro ⟨_, hrow⟩
  exact hrow

end

theorem header_of_scanned (hserver : serverTime ≠ zeroTime) (hmin : 0 ≤ watermark)
    (hmax : watermark < seqLimit) (hsummary : 0 ≤ scan.overCountThrough)
    (hbelow : 0 < scan.overCountThrough → scan.overCountThrough < watermark) :
    (scannedSnapshot groupID serverTime watermark snapshotID scan).WellFormed where
  session := rfl
  conversation := prefix_append _ _
  named := by
    have := groupID.length_eq
    simp only [scannedSnapshot, conversationOf, conversationPrefix, length_append,
      length_cons, length_nil]
    omega
  served := hserver
  watermarkMin := hmin
  watermarkMax := hmax
  prefixMin := hsummary
  prefixMax := hbelow
  complete := rfl

theorem rows_of_scanned
    (hreads : scan.Reads (scanRule groupID policy serverTime minSeq) documents watermark low)
    (hmax : watermark < seqLimit) (hsummary : scan.overCountThrough ≤ low)
    (hsent : SentBy documents groupID.text serverTime low watermark) :
    ∀ row ∈ (scannedSnapshot groupID serverTime watermark snapshotID scan).messages,
      (scannedSnapshot groupID serverTime watermark snapshotID scan).AcceptsRow row := by
  intro row hrow
  obtain ⟨hlow, hhigh, hpersisted⟩ := (hreads.mem row).mp hrow
  have hclassified : (row.visibility = .visible ∧ zeroTime < row.sendTime) ∨
      row.visibility = .hidden := by
    have hslot := hpersisted
    unfold Documents.row slotRow at hslot
    simp only [bind_eq_some_iff] at hslot
    obtain ⟨_, _, _, _, hclassify⟩ := hslot
    exact imAppClassify_classified hclassify
  refine ⟨lt_of_le_of_lt hsummary hlow, by omega, ?_, ?_⟩
  · intro _
    rcases hclassified with ⟨hvis, _⟩ | hhidden
    · exact .inl hvis
    exact .inr hhidden
  intro _ hvis
  rcases hclassified with ⟨_, hpos⟩ | hhidden
  · refine ⟨hpos.ne', ?_⟩
    apply hsent row.seq row.sendTime hlow hhigh
    have hrowAt : documents.row groupID.text row.seq = some row := hpersisted
    rw [visibleAt_of_row hrowAt, if_pos hvis]
  rw [hvis] at hhidden
  cases hhidden

theorem plannable_of_stopped (snapshotID : Text) {stop : Int}
    (hstopped : scan.Stopped (scanRule groupID policy serverTime minSeq) documents watermark stop)
    (hserver : serverTime ≠ zeroTime) (hmin : 0 ≤ watermark) (hmax : watermark < seqLimit)
    (hstop : stop ≤ watermark)
    (hsent : SentBy documents groupID.text serverTime (stop - 1) watermark) :
    (scannedSnapshot groupID serverTime watermark snapshotID scan).Plannable policy := by
  obtain ⟨hstart, t, ht, _, hquota⟩ := hstopped.stops
  have hover := hstopped.summarized
  have hlow : 1 ≤ max minSeq 1 := le_max_right _ _
  refine ⟨header_of_scanned hserver hmin hmax ?_ ?_, ?_, hstopped.covers.distinct, ?_⟩
  · simp only [scanRule] at hstart
    omega
  · omega
  · exact rows_of_scanned hstopped.covers.toReads hmax (by omega) hsent
  intro _
  rw [visibleRows_length_of_reads hstopped.covers.toReads]
  have hcover : stop - 1 ⋖ stop := ⟨by omega, fun k _ _ => by omega⟩
  have hitem : (documents.visibleAt groupID.text stop).isSome := by
    have : documents.visibleAt groupID.text stop = some t := ht
    simp [this]
  rw [newer_covBy hcover hstop, if_pos hitem]
  exact_mod_cast hquota

/-- Only the stopping row can be a candidate, and it lies below every kept row. -/
theorem boundary_of_stopped {stop : Int} {plan : RetentionPlan}
    (hstopped : scan.Stopped (scanRule groupID policy serverTime minSeq) documents watermark stop)
    (hplan : planGroupRetention (scannedSnapshot groupID serverTime watermark snapshotID scan)
      policy = some plan) :
    ∃ first ∈ plan.kept, (∀ k ∈ plan.kept, first ≤ k) ∧ stop ≤ first ∧
      retentionMinSeq plan = some first := by
  have hstart := hstopped.stops.1
  have hover := hstopped.summarized
  have hlow : 1 ≤ max minSeq 1 := le_max_right _ _
  have hheader : plan.overCountThrough = scan.overCountThrough := by
    obtain ⟨_, _, rfl⟩ := planGroupRetention_eq hplan
    rfl
  have hwork : ¬ (plan.candidates = [] ∧ plan.overCountThrough = 0) := by
    rintro ⟨_, hzero⟩
    simp only [scanRule] at hstart
    omega
  obtain ⟨first, hfirst, hleast, hres⟩ := retentionMinSeq_of_work hplan hwork
  have hret := (kept_iff hplan first).mp hfirst
  have hrange := visibleAt_range hplan hret.isSome
  have hstopFirst : stop ≤ first := by
    have : scan.overCountThrough < first := hrange.1
    omega
  refine ⟨first, hfirst, hleast, hstopFirst, ?_⟩
  rw [hres, if_pos]
  intro candidate hcand
  have hremovable := (candidates_iff hplan candidate.seq).mp ⟨candidate, hcand, rfl⟩
  have hseq := visibleAt_range hplan hremovable.isSome
  have hseqLow : scan.overCountThrough < candidate.seq := hseq.1
  have hseqHigh : candidate.seq ≤ watermark := hseq.2
  by_contra habove
  -- a candidate above the first kept row would have stopped the scan itself
  have hne : candidate.seq ≠ first := by
    intro heq
    exact not_removable_of_retained (heq ▸ hret) hremovable
  have hlater : stop < candidate.seq := by omega
  apply hstopped.first candidate.seq hlater hseqHigh
  have hhistory := (removable_of_reads hstopped.covers.toReads (by omega) hseqHigh).mp hremovable
  obtain ⟨t, ht, hold, hcount⟩ := hhistory
  refine ⟨by omega, t, ht, hold, ?_⟩
  have : (normalizeRetentionPolicy policy).maxMessages.toNat ≤
      newer (documents.visibleAt groupID.text) watermark candidate.seq := hcount
  change (normalizeRetentionPolicy policy).maxMessages ≤
    (newer (documents.visibleAt groupID.text) watermark candidate.seq : Int) + 1
  omega

end Scanned

theorem planGroupRetention_normalize (snapshot : RetentionSnapshot) (policy : RetentionPolicy) :
    planGroupRetention snapshot (normalizeRetentionPolicy policy) =
      planGroupRetention snapshot policy := by
  unfold planGroupRetention
  rw [normalizeRetentionPolicy_idempotent]

/-- The stores answered with usable values. -/
structure SnapshotRequest.Answered (request : SnapshotRequest) (watermark : Int)
    (serverTime : Time) (minSeq : Int) : Prop where
  maxSeqRead : request.maxSeq = some watermark
  watermarkMin : 0 ≤ watermark
  watermarkMax : watermark < seqLimit
  localTimeRead : request.localTime = some serverTime
  served : serverTime ≠ zeroTime
  minSeqRead : request.minSeq = some minSeq
  started : max minSeq 1 - 1 ≤ watermark

def SnapshotRequest.rule (request : SnapshotRequest) (serverTime : Time) (minSeq : Int) :
    ScanRule :=
  scanRule request.groupID request.policy serverTime minSeq

/-- The whole scan of a request. -/
def SnapshotRequest.scan (request : SnapshotRequest) (watermark : Int) (serverTime : Time)
    (minSeq : Int) : Option Scan :=
  scanSlots (request.rule serverTime minSeq) request.documents
    (watermark - (request.rule serverTime minSeq).start + 1).toNat watermark Scan.empty

theorem snapshot_eq_some_iff {request : SnapshotRequest} {result : RetentionSnapshot}
    {receipt : Receipt} :
    request.snapshot = some (result, receipt) ↔ ∃ watermark serverTime minSeq scan snapshotID plan,
        request.Answered watermark serverTime minSeq ∧
        request.scan watermark serverTime minSeq = some scan ∧
        request.snapshotID = some snapshotID ∧
        scannedSnapshot request.groupID serverTime watermark snapshotID scan = result ∧
        planGroupRetention result request.policy = some plan ∧
        request.receiptInserted = true ∧
        receipt = {
          id := snapshotID
          conversationID := conversationOf request.groupID
          boundary := (retentionMinSeq plan).getD 0
          expires := serverTime + receiptLifetime } := by
  unfold SnapshotRequest.snapshot
  constructor
  · intro h
    simp only [bind_eq_some_iff] at h
    obtain ⟨watermark, hmaxSeq, h⟩ := h
    split at h
    · cases h
    rename_i hwatermark
    obtain ⟨serverTime, hlocalTime, h⟩ := bind_eq_some_iff.mp h
    split at h
    · cases h
    rename_i hserved
    obtain ⟨minSeq, hminSeq, h⟩ := bind_eq_some_iff.mp h
    split at h
    · cases h
    rename_i hstarted
    obtain ⟨scan, hscan, h⟩ := bind_eq_some_iff.mp h
    obtain ⟨snapshotID, hid, h⟩ := bind_eq_some_iff.mp h
    obtain ⟨plan, hplan, h⟩ := bind_eq_some_iff.mp h
    split at h
    · rename_i hins
      cases h
      rw [scanDocs_eq_scanSlots (by decide) le_rfl] at hscan
      refine ⟨watermark, serverTime, minSeq, scan, snapshotID, plan, ?_, hscan, hid, rfl,
        ?_, hins, rfl⟩
      · push Not at hwatermark
        exact ⟨hmaxSeq, hwatermark.1, hwatermark.2, hlocalTime, hserved, hminSeq,
          not_lt.mp hstarted⟩
      rw [← hplan]
      exact (planGroupRetention_normalize _ _).symm
    cases h
  rintro ⟨watermark, serverTime, minSeq, scan, snapshotID, plan, hans, hscan, hid, rfl,
    hplan, hins, rfl⟩
  have hwatermark : ¬ (watermark < 0 ∨ seqLimit ≤ watermark) := by
    have := hans.watermarkMin
    have := hans.watermarkMax
    omega
  have hstarted : ¬ watermark < (scanRule request.groupID request.policy serverTime
      minSeq).start - 1 := not_lt.mpr hans.started
  have hscanDocs : scanDocs (request.rule serverTime minSeq) request.documents
      (watermark - (request.rule serverTime minSeq).start + 1).toNat watermark Scan.empty =
        some scan := by
    rw [scanDocs_eq_scanSlots (by decide) le_rfl]
    exact hscan
  have hnormalized : planGroupRetention
      (scannedSnapshot request.groupID serverTime watermark snapshotID scan)
      (scanRule request.groupID request.policy serverTime minSeq).policy = some plan := by
    rw [← hplan]
    exact planGroupRetention_normalize _ _
  rw [hans.maxSeqRead, bind_some, if_neg hwatermark, hans.localTimeRead,
    bind_some, if_neg hans.served, hans.minSeqRead, bind_some]
  dsimp only
  rw [if_neg hstarted]
  change (scanDocs (request.rule serverTime minSeq) request.documents
    (watermark - (request.rule serverTime minSeq).start + 1).toNat watermark
    Scan.empty).bind _ = _
  rw [hscanDocs, bind_some, hid, bind_some, hnormalized, bind_some, if_pos hins]

theorem scan_outcome {request : SnapshotRequest} {watermark : Int} {serverTime : Time}
    {minSeq : Int} {scan : Scan} (hans : request.Answered watermark serverTime minSeq)
    (hscan : request.scan watermark serverTime minSeq = some scan) :
    (∃ stop, max minSeq 1 ≤ stop ∧ stop ≤ watermark ∧
        scan.Stopped (request.rule serverTime minSeq) request.documents watermark stop) ∨
      scan.Running (request.rule serverTime minSeq) request.documents watermark
        (max minSeq 1 - 1) := by
  have hstart : 1 ≤ (request.rule serverTime minSeq).start := le_max_right _ _
  have hrule : (request.rule serverTime minSeq).start = max minSeq 1 := rfl
  have hstarted := hans.started
  rcases scanSlots_outcome hstart running_empty le_rfl hscan with
    ⟨stop, hlow, hhigh, hstopped⟩ | hrun
  · exact .inl ⟨stop, by omega, hhigh, hstopped⟩
  refine .inr ?_
  rw [show max minSeq 1 - 1 = watermark - ((watermark - max minSeq 1 + 1).toNat : Int) by omega]
  exact hrun

end ImApp.Retention
