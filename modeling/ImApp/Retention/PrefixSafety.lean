import ImApp.Retention.SnapshotPlan

/-!
Does the boundary cross a retained message? The scan stops at the first row that
is past the window with the quota proven, and it takes every lower row for
removable without reading its send time. The boundary is safe exactly when no
lower row is inside the window.
-/

namespace ImApp.Retention

open JsonText (Text)
open KeepNewest List Option

/-- The bridge's snapshot, planned again by its reader. -/
def SnapshotRequest.boundary (request : SnapshotRequest) : Option Int :=
  request.snapshot.bind fun answer =>
    (planGroupRetention answer.1 request.policy).bind retentionMinSeq

/-- Every visible message from the minimum up to a positive boundary is past the
window and outside the newest `maxMessages`. -/
def SnapshotRequest.NeverCrosses (request : SnapshotRequest) : Prop :=
  ∀ watermark serverTime minSeq boundary, request.maxSeq = some watermark →
    request.localTime = some serverTime → request.minSeq = some minSeq →
    request.boundary = some boundary → 0 < boundary →
    ∀ m, 1 ≤ m → minSeq ≤ m → m < boundary →
      (request.documents.visibleAt request.groupID.text m).isSome →
      Removable ((normalizeRetentionPolicy request.policy).rule serverTime)
        (request.documents.visibleAt request.groupID.text) watermark m

/-- The rows from `stop` up to the watermark can be read and planned. -/
structure SnapshotRequest.ReadsTo (request : SnapshotRequest) (watermark : Int)
    (serverTime : Time) (stop : Int) : Prop where
  readable : ∀ k, stop ≤ k → k ≤ watermark → (request.documents.row request.groupID.text k).isSome
  sent : SentBy request.documents request.groupID.text serverTime (stop - 1) watermark
  limit : watermark - stop + 1 ≤ imAppRetentionMaxSnapshot
  identified : request.snapshotID.isSome
  recorded : request.receiptInserted = true

/-- Below a row where the scan can stop, every visible row is past the window. -/
def SnapshotRequest.OldBelowStop (request : SnapshotRequest) : Prop :=
  ∀ watermark serverTime minSeq stop, request.Answered watermark serverTime minSeq →
    stop ≤ watermark → request.ReadsTo watermark serverTime stop →
    (request.rule serverTime minSeq).StopsAt request.documents watermark stop →
    ∀ m t, max minSeq 1 ≤ m → m < stop →
      request.documents.visibleAt request.groupID.text m = some t →
      t < (request.rule serverTime minSeq).cutoff

section Safety

variable {request : SnapshotRequest} {watermark : Int} {serverTime : Time} {minSeq : Int}
  {snapshotID : Text} {scan : Scan} {plan : RetentionPlan}

theorem readsTo_of_plan {stop : Int}
    (hstopped : scan.Stopped (request.rule serverTime minSeq) request.documents watermark stop)
    (hplan : planGroupRetention
      (scannedSnapshot request.groupID serverTime watermark snapshotID scan) request.policy =
        some plan)
    (hid : request.snapshotID = some snapshotID) (hins : request.receiptInserted = true) :
    request.ReadsTo watermark serverTime stop where
  readable k hlow hhigh := hstopped.covers.readable k (by omega) hhigh
  sent := sentBy_of_plan hstopped.covers.toReads hplan
  limit := by
    have hscanned := hstopped.covers.scanned
    have hbounded := hstopped.covers.bounded
    omega
  identified := by simp [hid]
  recorded := hins

/-- Where the scan reads the rows, the boundary removes what the rule removes. -/
theorem removable_above {low m boundary : Int}
    (hreads : scan.Reads (request.rule serverTime minSeq) request.documents watermark low)
    (hplan : planGroupRetention
      (scannedSnapshot request.groupID serverTime watermark snapshotID scan) request.policy =
        some plan)
    (hbound : retentionMinSeq plan = some boundary) (hm : m < boundary) (hlow : low < m)
    (hvis : (request.documents.visibleAt request.groupID.text m).isSome)
    (hhigh : m ≤ watermark) : Removable ((normalizeRetentionPolicy request.policy).rule serverTime)
      (request.documents.visibleAt request.groupID.text) watermark m := by
  have hview : ((scannedSnapshot request.groupID serverTime watermark snapshotID scan).visibleAt
      m).isSome := by
    rw [visibleAt_of_reads hreads, if_pos ⟨hlow, hhigh⟩]
    exact hvis
  have hremovable := removable_of_lt_boundary hplan hbound hview hm
  exact (removable_of_reads hreads hlow hhigh).mp hremovable

theorem boundary_le_watermark {boundary : Int} {snapshot : RetentionSnapshot}
    {policy : RetentionPolicy} (hplan : planGroupRetention snapshot policy = some plan)
    (hbound : retentionMinSeq plan = some boundary) (hpos : 0 < boundary) :
    boundary ≤ snapshot.watermark := by
  by_cases hwork : plan.candidates = [] ∧ plan.overCountThrough = 0
  · rw [retentionMinSeq_of_no_work hplan hwork] at hbound
    have := some.inj hbound
    omega
  obtain ⟨first, hfirst, _, hres⟩ := retentionMinSeq_of_work hplan hwork
  rw [hres] at hbound
  split at hbound
  · rw [← some.inj hbound]
    exact (visibleAt_range hplan ((kept_iff hplan first).mp hfirst).isSome).2
  cases hbound

end Safety

/-- A recent message under an old one under a recent one, with a quota of one. -/
def recentBelowOld : SnapshotRequest where
  groupID := GroupID.replicate 'a' rfl
  policy := ⟨1, hour⟩
  maxSeq := some 3
  localTime := some (unixMilli 10000000)
  minSeq := some 0
  documents := fun number => if number = 0 then some (
    [(1, 9000000), (2, 1000), (3, 9500000)].map fun (seq, sendTime) => some ⟨some {
      seq := seq
      sessionType := .readGroupChat
      groupID := List.replicate 32 'a'
      contentType := .text
      status := .other 2
      history := none
      sendTime := sendTime
      content := [] }⟩) else none
  snapshotID := some ['r']
  receiptInserted := true

/-- Every message was sent before the server time, and the boundary crosses the
first one, which is inside the window. -/
theorem recentBelowOld_crosses :
    (∀ m t, recentBelowOld.documents.visibleAt recentBelowOld.groupID.text m = some t →
      t ≤ unixMilli 10000000) ∧ ¬ recentBelowOld.NeverCrosses := by
  constructor
  · intro m t ht
    obtain ⟨msg, hmsg, rfl⟩ := visibleAt_sendTime ht
    obtain ⟨doc, hdoc, hmem⟩ := hmsg
    simp only [recentBelowOld] at hdoc
    split at hdoc
    · cases hdoc
      simp only [map_cons, map_nil, mem_cons, some.injEq, MsgInfo.mk.injEq,
        not_mem_nil, or_false] at hmem
      rcases hmem with rfl | rfl | rfl <;> decide
    cases hdoc
  intro hsafe
  obtain ⟨t, ht, hold, _⟩ := hsafe 3 (unixMilli 10000000) 0 3 rfl rfl rfl (by decide)
    (by decide) 1 (by decide) (by decide) (by decide) (by decide)
  have hsent : recentBelowOld.documents.visibleAt recentBelowOld.groupID.text 1 =
      some (unixMilli 9000000) := by decide
  rw [hsent] at ht
  rw [← some.inj ht] at hold
  exact absurd hold (by decide)

/-- The boundary never crosses a message the policy retains if and only if every
row below a possible stop of the scan is past the window. -/
theorem neverCrosses_iff (request : SnapshotRequest) :
    request.NeverCrosses ↔ request.OldBelowStop := by
  constructor
  · intro hsafe watermark serverTime minSeq stop hans hstop hreads hstops m t hlow hm ht
    have hstart : 1 ≤ (request.rule serverTime minSeq).start := le_max_right _ _
    have hstartStop : max minSeq 1 < stop := hstops.1
    obtain ⟨scan, last, hscan, hlast, hlastHigh, hstopped⟩ :=
      exists_stopped hstart (watermark - max minSeq 1 + 1).toNat running_empty le_rfl
        (by omega) hstop hstops hreads.readable hreads.limit
    obtain ⟨snapshotID, hid⟩ := isSome_iff_exists.mp hreads.identified
    have hsent : SentBy request.documents request.groupID.text serverTime (last - 1)
        watermark := fun k t hk hkw => hreads.sent k t (by omega) hkw
    have hplannable := plannable_of_stopped snapshotID hstopped hans.served
      hans.watermarkMin hans.watermarkMax hlastHigh hsent
    obtain ⟨plan, hplan⟩ := isSome_iff_exists.mp (planGroupRetention_isSome_iff.mpr hplannable)
    obtain ⟨first, _, _, hfirst, hbound⟩ := boundary_of_stopped hstopped hplan
    have hsnap := snapshot_eq_some_iff.mpr ⟨watermark, serverTime, minSeq, scan, snapshotID,
      plan, hans, hscan, hid, rfl, hplan, hreads.recorded, rfl⟩
    have hres : request.boundary = some first := by
      rw [SnapshotRequest.boundary, hsnap, bind_some, hplan, bind_some, hbound]
    obtain ⟨t', ht', hold, _⟩ := hsafe watermark serverTime minSeq first hans.maxSeqRead
      hans.localTimeRead hans.minSeqRead hres (by omega) m (by omega) (by omega)
      (by omega) (by simp [ht])
    rw [ht] at ht'
    rw [some.inj ht']
    exact hold
  intro hold watermark serverTime minSeq boundary hmaxSeq hlocalTime hminSeq hres hpos m
    hone hmin hm hvis
  obtain ⟨⟨result, receipt⟩, hsnap, hres⟩ := bind_eq_some_iff.mp hres
  obtain ⟨plan, hplan, hbound⟩ := bind_eq_some_iff.mp hres
  obtain ⟨watermark', serverTime', minSeq', scan, snapshotID, _, hans, hscan, hid, rfl, _,
    hins, _⟩ := snapshot_eq_some_iff.mp hsnap
  cases hmaxSeq.symm.trans hans.maxSeqRead
  cases hlocalTime.symm.trans hans.localTimeRead
  cases hminSeq.symm.trans hans.minSeqRead
  have hwatermark : boundary ≤ watermark := boundary_le_watermark hplan hbound hpos
  have hstartM : max minSeq 1 ≤ m := max_le hmin hone
  rcases scan_outcome hans hscan with ⟨stop, _, hhigh, hstopped⟩ | hrun
  · by_cases hbelow : m < stop
    · -- the summarized prefix: only its age decides
      obtain ⟨t, ht⟩ := isSome_iff_exists.mp hvis
      have hage := hold watermark serverTime minSeq stop hans hhigh
        (readsTo_of_plan hstopped hplan hid hins) hstopped.stops m t hstartM hbelow ht
      obtain ⟨_, tstop, htstop, _, hquota⟩ := hstopped.stops
      have hitem : (request.documents.visibleAt request.groupID.text stop).isSome := by
        have : request.documents.visibleAt request.groupID.text stop = some tstop := htstop
        simp [this]
      refine removable_below hbelow hhigh hitem ?_ ht hage
      have : (normalizeRetentionPolicy request.policy).maxMessages ≤
          (newer (request.documents.visibleAt request.groupID.text) watermark stop : Int) + 1 :=
        hquota
      simp only [RetentionPolicy.rule]
      omega
    exact removable_above hstopped.covers.toReads hplan hbound hm (by omega) hvis (by omega)
  exact removable_above hrun.covers.toReads hplan hbound hm (by omega) hvis (by omega)

end ImApp.Retention
