import ImApp.Retention.SnapshotPlan

/-!
The compact snapshot against the full one. Over a history with non-decreasing
send times, leaving out the rows below the stop of the scan changes neither the
kept rows nor the visible rows below the boundary.
-/

namespace ImApp.Retention

open JsonText (Text)
open KeepNewest List Option

/-- Every row from `n` down, without the stop and the limit of the scan. -/
def fullRows (documents : Documents) (groupID : Text) : Nat → Int → Option (List RetentionMessage)
  | 0, _ => some []
  | count + 1, n => (documents.row groupID n).bind fun row =>
    (fullRows documents groupID count (n - 1)).map fun rows => row :: rows

/-- The row-by-row snapshot of the same history. -/
def SnapshotRequest.fullSnapshot (request : SnapshotRequest) (snapshotID : Text) :
    Option RetentionSnapshot :=
  request.maxSeq.bind fun watermark => request.localTime.bind fun serverTime =>
    request.minSeq.bind fun minSeq =>
      (fullRows request.documents request.groupID.text (watermark - max minSeq 1 + 1).toNat
        watermark).map fun rows =>
          scannedSnapshot request.groupID serverTime watermark snapshotID
            { messages := rows, visible := 0, scanned := 0, overCountThrough := 0 }

theorem fullRows_mem {documents : Documents} {groupID : Text} {count : Nat} {n : Int}
    {rows : List RetentionMessage} (hrows : fullRows documents groupID count n = some rows) :
    (∀ row, row ∈ rows ↔
      n - count < row.seq ∧ row.seq ≤ n ∧ documents.row groupID row.seq = some row) ∧
    (rows.map RetentionMessage.seq).Nodup := by
  induction count generalizing n rows with
  | zero =>
    rw [fullRows, some.injEq] at hrows
    subst hrows
    refine ⟨fun row => ?_, by simp⟩
    simp only [not_mem_nil, Nat.cast_zero, false_iff]
    rintro ⟨hlow, hhigh, _⟩
    omega
  | succ count ih =>
    simp only [fullRows, bind_eq_some_iff, map_eq_some_iff] at hrows
    obtain ⟨first, hfirst, rest, hrest, rfl⟩ := hrows
    obtain ⟨hmem, hnodup⟩ := ih hrest
    have hseq := row_seq hfirst
    refine ⟨?_, ?_⟩
    · intro row
      rw [mem_cons, hmem row]
      push_cast
      constructor
      · rintro (rfl | ⟨hlow, hhigh, hrow⟩)
        · exact ⟨by omega, by omega, by rw [hseq, hfirst]⟩
        exact ⟨by omega, by omega, hrow⟩
      rintro ⟨hlow, hhigh, hrow⟩
      by_cases heq : row.seq = n
      · rw [heq, hfirst] at hrow
        exact .inl (some.inj hrow).symm
      exact .inr ⟨by omega, by omega, hrow⟩
    rw [map_cons, nodup_cons]
    refine ⟨?_, hnodup⟩
    intro hrow
    obtain ⟨row, hrow, heq⟩ := List.mem_map.mp hrow
    have := ((hmem row).mp hrow).2.1
    omega

section Full

variable {request : SnapshotRequest} {watermark : Int} {serverTime : Time} {minSeq : Int}
  {snapshotID : Text} {full : RetentionSnapshot}

theorem fullSnapshot_reads (hans : request.Answered watermark serverTime minSeq)
    (hfull : request.fullSnapshot snapshotID = some full) :
    ∃ scan : Scan, scan.overCountThrough = 0 ∧
      full = scannedSnapshot request.groupID serverTime watermark snapshotID scan ∧
      scan.Reads (request.rule serverTime minSeq) request.documents watermark
        (max minSeq 1 - 1) := by
  unfold SnapshotRequest.fullSnapshot at hfull
  rw [hans.maxSeqRead, bind_some, hans.localTimeRead, bind_some,
    hans.minSeqRead, bind_some, map_eq_some_iff] at hfull
  obtain ⟨rows, hrows, rfl⟩ := hfull
  obtain ⟨hmem, hnodup⟩ := fullRows_mem hrows
  refine ⟨_, rfl, rfl, fun row => ?_, hnodup⟩
  have hstarted := hans.started
  rw [hmem row, show watermark - ((watermark - max minSeq 1 + 1).toNat : Int) =
    max minSeq 1 - 1 by omega]
  rfl

/-- The visible send times do not decrease from the minimum up. -/
def SnapshotRequest.Chronological (request : SnapshotRequest) : Prop :=
  ∀ watermark minSeq, request.maxSeq = some watermark → request.minSeq = some minSeq →
    ∀ m n tm tn, max minSeq 1 ≤ m → m < n → n ≤ watermark →
      request.documents.visibleAt request.groupID.text m = some tm →
      request.documents.visibleAt request.groupID.text n = some tn → tm ≤ tn

variable {scan : Scan}

theorem chronological_of_reads {low : Int} (hans : request.Answered watermark serverTime minSeq)
    (hchron : request.Chronological) (hlow : max minSeq 1 - 1 ≤ low)
    (hreads : scan.Reads (request.rule serverTime minSeq) request.documents watermark low) :
    Chronological (scannedSnapshot request.groupID serverTime watermark snapshotID
      scan).visibleAt watermark := by
  intro m n tm tn hmn hn htm htn
  rw [visibleAt_of_reads hreads] at htm htn
  split at htm
  · rename_i hm
    rw [if_pos ⟨by omega, hn⟩] at htn
    exact hchron watermark minSeq hans.maxSeqRead hans.minSeqRead m n tm tn (by omega)
      hmn hn htm htn
  cases htm

/-- The rows that the compact snapshot leaves out are removable, and its boundary
lies above them. -/
structure Omits (request : SnapshotRequest) (watermark : Int) (serverTime : Time) (minSeq : Int)
    (plan : RetentionPlan) (low : Int) : Prop where
  removable : ∀ m, max minSeq 1 ≤ m → m ≤ low →
    (request.documents.visibleAt request.groupID.text m).isSome →
    Removable ((normalizeRetentionPolicy request.policy).rule serverTime)
      (request.documents.visibleAt request.groupID.text) watermark m
  below : ∀ m boundary, max minSeq 1 ≤ m → m ≤ low → retentionMinSeq plan = some boundary →
    m < boundary
  sent : SentBy request.documents request.groupID.text serverTime (max minSeq 1 - 1) watermark

variable {plan : RetentionPlan}

theorem omits_of_stopped {stop : Int}
    (hans : request.Answered watermark serverTime minSeq) (hchron : request.Chronological)
    (hstopped : scan.Stopped (request.rule serverTime minSeq) request.documents watermark stop)
    (hstop : stop ≤ watermark) (hplan : planGroupRetention
      (scannedSnapshot request.groupID serverTime watermark snapshotID scan) request.policy =
        some plan) : Omits request watermark serverTime minSeq plan (stop - 1) := by
  obtain ⟨_, tstop, htstop, hold, hquota⟩ := hstopped.stops
  have hage : ∀ m t, max minSeq 1 ≤ m → m < stop →
      request.documents.visibleAt request.groupID.text m = some t → t ≤ tstop :=
    fun m t hm hlt ht => hchron watermark minSeq hans.maxSeqRead hans.minSeqRead m stop
      t tstop hm hlt hstop ht htstop
  have hitem : (request.documents.visibleAt request.groupID.text stop).isSome := by
    have : request.documents.visibleAt request.groupID.text stop = some tstop := htstop
    simp [this]
  have hsent := sentBy_of_plan hstopped.covers.toReads hplan
  refine ⟨?_, ?_, ?_⟩
  · intro m hm hlow hvis
    obtain ⟨t, ht⟩ := isSome_iff_exists.mp hvis
    have hlt : m < stop := by omega
    refine removable_below hlt hstop hitem ?_ ht (lt_of_le_of_lt (hage m t hm hlt ht) hold)
    have : (normalizeRetentionPolicy request.policy).maxMessages ≤
        (newer (request.documents.visibleAt request.groupID.text) watermark stop : Int) + 1 :=
      hquota
    simp only [RetentionPolicy.rule]
    omega
  · intro m boundary _ hlow hbound
    obtain ⟨first, _, _, hfirst, hres⟩ := boundary_of_stopped hstopped hplan
    rw [hres] at hbound
    have := some.inj hbound
    omega
  intro k t hlow hhigh ht
  by_cases hbelow : k < stop
  · have hstopSent := hsent stop tstop (by omega) hstop htstop
    exact (hage k t (by omega) hbelow ht).trans hstopSent
  exact hsent k t (by omega) hhigh ht

theorem omits_of_running
    (hrun : scan.Running (request.rule serverTime minSeq) request.documents watermark
      (max minSeq 1 - 1)) (hplan : planGroupRetention
      (scannedSnapshot request.groupID serverTime watermark snapshotID scan) request.policy =
        some plan) : Omits request watermark serverTime minSeq plan (max minSeq 1 - 1) where
  removable m hm hlow := by omega
  below m boundary hm hlow := by omega
  sent := sentBy_of_plan hrun.covers.toReads hplan

theorem exists_omits
    (hans : request.Answered watermark serverTime minSeq) (hchron : request.Chronological)
    (hscan : request.scan watermark serverTime minSeq = some scan) (hplan : planGroupRetention
      (scannedSnapshot request.groupID serverTime watermark snapshotID scan) request.policy =
        some plan) : ∃ low, max minSeq 1 - 1 ≤ low ∧
      scan.Reads (request.rule serverTime minSeq) request.documents watermark low ∧
      Omits request watermark serverTime minSeq plan low := by
  rcases scan_outcome hans hscan with ⟨stop, hlow, hhigh, hstopped⟩ | hrun
  · exact ⟨stop - 1, by omega, hstopped.covers.toReads,
      omits_of_stopped hans hchron hstopped hhigh hplan⟩
  exact ⟨_, le_rfl, hrun.covers.toReads, omits_of_running hrun hplan⟩

theorem exists_full_plan (hans : request.Answered watermark serverTime minSeq) (hover : scan.overCountThrough = 0)
    (hreads : scan.Reads (request.rule serverTime minSeq) request.documents watermark
      (max minSeq 1 - 1))
    (hsent : SentBy request.documents request.groupID.text serverTime (max minSeq 1 - 1)
      watermark) : ∃ plan, planGroupRetention
      (scannedSnapshot request.groupID serverTime watermark snapshotID scan) request.policy =
        some plan := by
  apply isSome_iff_exists.mp
  apply planGroupRetention_isSome_iff.mpr
  refine ⟨header_of_scanned hans.served hans.watermarkMin hans.watermarkMax
    (by omega) (by omega), rows_of_scanned hreads hans.watermarkMax (by omega) hsent,
    hreads.distinct, ?_⟩
  intro hsummary
  have : 0 < scan.overCountThrough := hsummary
  omega

end Full

/-- Over a chronological history the compact plan keeps the same rows as the full
one, its boundary delimits the same visible messages, and it is refused only
where the full one is. -/
theorem compact_plan_refines_full {request : SnapshotRequest} {compact full : RetentionSnapshot}
    {receipt : Receipt} (hcompact : request.snapshot = some (compact, receipt))
    (hfull : request.fullSnapshot compact.snapshotID = some full) (hchron : request.Chronological) :
    ∃ compactPlan fullPlan, planGroupRetention compact request.policy = some compactPlan ∧
      planGroupRetention full request.policy = some fullPlan ∧ compactPlan.kept = fullPlan.kept ∧
      (retentionMinSeq compactPlan = none → retentionMinSeq fullPlan = none) ∧
      ∀ compactMin fullMin, retentionMinSeq compactPlan = some compactMin →
        retentionMinSeq fullPlan = some fullMin →
        ∀ watermark minSeq m, request.maxSeq = some watermark → request.minSeq = some minSeq →
          max minSeq 1 ≤ m → m ≤ watermark →
          (request.documents.visibleAt request.groupID.text m).isSome →
          (m < compactMin ↔ m < fullMin) := by
  obtain ⟨watermark, serverTime, minSeq, scan, snapshotID, plan, hans, hscan, _, rfl, hplan,
    _, _⟩ := snapshot_eq_some_iff.mp hcompact
  obtain ⟨low, hlow, hreads, homits⟩ := exists_omits hans hchron hscan hplan
  obtain ⟨fullScan, hover, rfl, hfullReads⟩ := fullSnapshot_reads hans hfull
  obtain ⟨fullPlan, hfullPlan⟩ := exists_full_plan hans hover hfullReads homits.sent
  obtain ⟨compactMin, hcompactMin, hdelimits⟩ := boundary_of_chronological hplan
    (chronological_of_reads hans hchron hlow hreads)
  obtain ⟨fullMin, hfullMin, hfullDelimits⟩ := boundary_of_chronological hfullPlan
    (chronological_of_reads hans hchron le_rfl hfullReads)
  refine ⟨plan, fullPlan, hplan, hfullPlan, ?_, ?_, ?_⟩
  · apply (kept_sorted hplan).eq_of_mem_iff (kept_sorted hfullPlan)
    intro k
    rw [kept_iff hplan, kept_iff hfullPlan]
    constructor
    · intro hret
      have hview := hret.isSome
      rw [visibleAt_of_reads hreads] at hview
      split at hview
      · rename_i hk
        exact (retained_of_reads hfullReads (by omega) hk.2).mpr
          ((retained_of_reads hreads hk.1 hk.2).mp hret)
      cases hview
    intro hret
    have hview := hret.isSome
    rw [visibleAt_of_reads hfullReads] at hview
    split at hview
    · rename_i hk
      have hhistory := (retained_of_reads hfullReads hk.1 hk.2).mp hret
      by_cases habove : low < k
      · exact (retained_of_reads hreads habove hk.2).mpr hhistory
      exact absurd (homits.removable k (by omega) (by omega) hview)
        (not_removable_of_retained hhistory)
    cases hview
  · intro hrefused
    rw [hcompactMin] at hrefused
    cases hrefused
  intro compactMin' fullMin' hcompactMin' hfullMin' watermark' minSeq' m hmaxSeq hminSeq hm hmw hvis
  cases hans.maxSeqRead.symm.trans hmaxSeq
  cases hans.minSeqRead.symm.trans hminSeq
  cases hcompactMin.symm.trans hcompactMin'
  cases hfullMin.symm.trans hfullMin'
  have hfullView := hfullDelimits m (by
    rw [visibleAt_of_reads hfullReads, if_pos ⟨by omega, hmw⟩]
    exact hvis)
  have hfullHistory : m < fullMin ↔ Removable
      ((normalizeRetentionPolicy request.policy).rule serverTime)
      (request.documents.visibleAt request.groupID.text) watermark m :=
    hfullView.trans (removable_of_reads hfullReads (by omega) hmw)
  rw [hfullHistory]
  by_cases habove : low < m
  · have hview := hdelimits m (by
      rw [visibleAt_of_reads hreads, if_pos ⟨habove, hmw⟩]
      exact hvis)
    exact hview.trans (removable_of_reads hreads habove hmw)
  exact ⟨fun _ => homits.removable m hm (by omega) hvis,
    fun _ => homits.below m compactMin hm (by omega) hcompactMin⟩

/-- Two old messages under a recent one, with a quota of one. -/
def agedHistory : SnapshotRequest where
  groupID := GroupID.replicate 'b' rfl
  policy := ⟨1, hour⟩
  maxSeq := some 3
  localTime := some (unixMilli 10000000)
  minSeq := some 0
  documents := fun number => if number = 0 then some (
    [(1, 1000), (2, 2000), (3, 9500000)].map fun (seq, sendTime) => some ⟨some {
      seq := seq
      sessionType := .readGroupChat
      groupID := List.replicate 32 'b'
      contentType := .text
      status := .other 2
      history := none
      sendTime := sendTime
      content := [] }⟩) else none
  snapshotID := some ['s']
  receiptInserted := true

def agedRows (count : Nat) (overCountThrough : Int) : RetentionSnapshot :=
  scannedSnapshot agedHistory.groupID (unixMilli 10000000) 3 ['s'] {
    messages := ([(3, 9500000), (2, 2000), (1, 1000)].take count).map fun (seq, sendTime) =>
      ⟨seq, unixMilli sendTime, .visible⟩
    visible := 0
    scanned := 0
    overCountThrough := overCountThrough }

theorem agedHistory_refines :
    ∃ compactPlan fullPlan, planGroupRetention (agedRows 2 1) agedHistory.policy =
        some compactPlan ∧ planGroupRetention (agedRows 3 0) agedHistory.policy = some fullPlan ∧
      compactPlan.kept = fullPlan.kept := by
  have hcompact : agedHistory.snapshot = some (agedRows 2 1,
      ⟨['s'], conversationOf agedHistory.groupID, 3, unixMilli 10000000 + receiptLifetime⟩) := by
    decide
  have hfull : agedHistory.fullSnapshot (agedRows 2 1).snapshotID = some (agedRows 3 0) := by
    decide
  have hchron : agedHistory.Chronological := by
    intro watermark minSeq hwatermark hminSeq m n tm tn hm hmn hn htm htn
    obtain rfl : 3 = watermark := some.inj hwatermark
    obtain rfl : 0 = minSeq := some.inj hminSeq
    have hrows : ∀ k ∈ [(1 : Int), 2, 3], ∀ l ∈ [(1 : Int), 2, 3], k < l →
        ∀ s ∈ agedHistory.documents.visibleAt agedHistory.groupID.text k,
        ∀ t ∈ agedHistory.documents.visibleAt agedHistory.groupID.text l, s ≤ t := by decide
    exact hrows m (by simp; omega) n (by simp; omega) hmn tm htm tn htn
  obtain ⟨compactPlan, fullPlan, hcompactPlan, hfullPlan, hkept, _⟩ :=
    compact_plan_refines_full hcompact hfull hchron
  exact ⟨compactPlan, fullPlan, hcompactPlan, hfullPlan, hkept⟩

end ImApp.Retention
