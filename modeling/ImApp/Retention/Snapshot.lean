import ImApp.Retention.Boundary
import ImApp.Retention.History

/-!
The bridge's snapshot of a group. The scan reads the slots from the watermark
down. Once enough visible rows are proven and the current visible row is past
the window, it stops and summarizes every lower sequence. The document loop is
the same as one loop over the slots, and the invariant of that loop says what a
partial scan has read.
-/

namespace ImApp.Retention

open JsonText (Text)
open KeepNewest List Option

def imAppRetentionMaxSnapshot : Nat := 20000

def lowerHex (c : Char) : Bool := c.isDigit || ('a' ≤ c && c ≤ 'f')

/-- A group identifier that the bridge's query check admits. -/
structure GroupID where
  text : Text
  length_eq : text.length = 32
  hex : ∀ c ∈ text, lowerHex c = true
  deriving DecidableEq

def GroupID.replicate (c : Char) (hc : lowerHex c = true) : GroupID where
  text := List.replicate 32 c
  length_eq := length_replicate
  hex d hd := by
    rw [eq_of_mem_replicate hd]
    exact hc

structure Scan where
  messages : List RetentionMessage
  visible : Nat
  scanned : Nat
  overCountThrough : Int

def Scan.empty : Scan := ⟨[], 0, 0, 0⟩

/-- What the loops of one scan share. -/
structure ScanRule where
  groupID : Text
  policy : RetentionPolicy
  cutoff : Time
  start : Int

def scanSlot (rule : ScanRule) (doc : List (Option MsgInfo)) (n : Int) (scan : Scan) :
    Option Scan :=
  if imAppRetentionMaxSnapshot < scan.scanned + 1 then none
  else (slotRow doc rule.groupID n).map fun row =>
    let scan := { scan with scanned := scan.scanned + 1, messages := scan.messages ++ [row] }
    if row.visibility = .visible then
      let scan := { scan with visible := scan.visible + 1 }
      if rule.policy.maxMessages ≤ scan.visible ∧ row.sendTime < rule.cutoff ∧ rule.start < n then
        { scan with overCountThrough := n - 1 }
      else scan
    else scan

/-- The `count` slots of one document from `n` down. -/
def scanDoc (rule : ScanRule) (doc : List (Option MsgInfo)) : Nat → Int → Scan → Option Scan
  | 0, _, scan => some scan
  | count + 1, n, scan => (scanSlot rule doc n scan).bind fun scan =>
    if 0 < scan.overCountThrough then some scan else scanDoc rule doc count (n - 1) scan

/-- The documents from the one of `last` down. Every round ends at a lower
sequence, so the number of slots bounds the rounds. -/
def scanDocs (rule : ScanRule) (documents : Documents) : Nat → Int → Scan → Option Scan
  | 0, _, scan => some scan
  | rounds + 1, last, scan => if last < rule.start then some scan
    else (documents (docNumber last)).bind fun doc =>
      let first := max rule.start ((last - 1) / singleGocMsgNum * singleGocMsgNum + 1)
      (scanDoc rule doc (last - first + 1).toNat last scan).bind fun scan =>
        if 0 < scan.overCountThrough then some scan
        else scanDocs rule documents rounds (first - 1) scan

structure Receipt where
  id : Text
  conversationID : Text
  boundary : Int
  expires : Time
  deriving DecidableEq

/-- One snapshot request with the answers of the stores; a failed call has none.
`minSeq` is zero for a conversation without a sequence document. -/
structure SnapshotRequest where
  groupID : GroupID
  policy : RetentionPolicy
  maxSeq : Option Int
  localTime : Option Time
  minSeq : Option Int
  documents : Documents
  snapshotID : Option Text
  receiptInserted : Bool

def conversationOf (groupID : GroupID) : Text := conversationPrefix ++ groupID.text

def receiptLifetime : Int := 30 * 24 * hour

def scanRule (groupID : GroupID) (policy : RetentionPolicy) (serverTime : Time) (minSeq : Int) :
    ScanRule where
  groupID := groupID.text
  policy := normalizeRetentionPolicy policy
  cutoff := serverTime - (normalizeRetentionPolicy policy).window
  start := max minSeq 1

def scannedSnapshot (groupID : GroupID) (serverTime : Time) (watermark : Int) (snapshotID : Text)
    (scan : Scan) : RetentionSnapshot where
  snapshotID := snapshotID
  conversationID := conversationOf groupID
  sessionType := groupSession
  serverTime := serverTime
  watermark := watermark
  overCountThrough := scan.overCountThrough
  complete := true
  messages := scan.messages

/-- The snapshot with the receipt that is stored for it. A plan that is no
prefix stays a read-only preview, so its receipt carries the boundary zero. -/
def SnapshotRequest.snapshot (request : SnapshotRequest) : Option (RetentionSnapshot × Receipt) :=
  request.maxSeq.bind fun watermark =>
    if watermark < 0 ∨ seqLimit ≤ watermark then none
    else request.localTime.bind fun localTime =>
      if localTime = zeroTime then none
      else request.minSeq.bind fun minSeq =>
        let rule := scanRule request.groupID request.policy localTime minSeq
        if watermark < rule.start - 1 then none
        else (scanDocs rule request.documents (watermark - rule.start + 1).toNat watermark
            Scan.empty).bind fun scan =>
          request.snapshotID.bind fun snapshotID =>
            let result := scannedSnapshot request.groupID localTime watermark snapshotID scan
            (planGroupRetention result rule.policy).bind fun plan =>
              if request.receiptInserted then
                some (result, {
                  id := snapshotID
                  conversationID := conversationOf request.groupID
                  boundary := (retentionMinSeq plan).getD 0
                  expires := localTime + receiptLifetime })
              else none

def scanSlots (rule : ScanRule) (documents : Documents) : Nat → Int → Scan → Option Scan
  | 0, _, scan => some scan
  | count + 1, n, scan => (documents (docNumber n)).bind fun doc =>
    (scanSlot rule doc n scan).bind fun scan => if 0 < scan.overCountThrough then some scan
      else scanSlots rule documents count (n - 1) scan

variable {rule : ScanRule} {documents : Documents}

variable {doc : List (Option MsgInfo)}

theorem scanSlots_add {count more : Nat} {n : Int} {scan : Scan}
    (hdoc : ∀ k, n - count < k → k ≤ n → documents (docNumber k) = some doc)
    (hover : ¬ 0 < scan.overCountThrough) : scanSlots rule documents (count + more) n scan =
      (scanDoc rule doc count n scan).bind fun scan => if 0 < scan.overCountThrough then some scan
        else scanSlots rule documents more (n - count) scan := by
  induction count generalizing n scan with
  | zero =>
    simp [scanDoc, hover]
  | succ count ih =>
    have hslots : scanSlots rule documents (count + 1 + more) n scan =
        (scanSlot rule doc n scan).bind fun scan =>
          if 0 < scan.overCountThrough then some scan
          else scanSlots rule documents (count + more) (n - 1) scan := by
      rw [Nat.add_right_comm, scanSlots, hdoc n (by push_cast; omega) le_rfl, bind_some]
    rw [hslots, scanDoc, bind_assoc]
    congr 1
    funext next
    by_cases hnext : 0 < next.overCountThrough
    · simp [hnext]
    rw [if_neg hnext, if_neg hnext, ih (fun k hlow hhigh => hdoc k ?_ (by omega)) hnext]
    · congr 1
      funext last
      rw [show n - 1 - (count : Int) = n - ((count + 1 : Nat) : Int) by push_cast; omega]
    push_cast
    omega

variable {k : Int}

theorem docNumber_of_round {last start : Int}
    (hlow : max start ((last - 1) / singleGocMsgNum * singleGocMsgNum + 1) ≤ k) (hhigh : k ≤ last) :
    docNumber k = docNumber last := by
  unfold docNumber singleGocMsgNum at *
  have := le_trans (le_max_right _ _) hlow
  omega

theorem scanDocs_eq_scanSlots {rounds : Nat} {last : Int} {scan : Scan}
    (hover : ¬ 0 < scan.overCountThrough) (hrounds : (last - rule.start + 1).toNat ≤ rounds) :
    scanDocs rule documents rounds last scan =
      scanSlots rule documents (last - rule.start + 1).toNat last scan := by
  induction rounds generalizing last scan with
  | zero =>
    rw [Nat.le_zero.mp hrounds]
    rfl
  | succ rounds ih =>
    unfold scanDocs
    by_cases hlast : last < rule.start
    · rw [if_pos hlast, show (last - rule.start + 1).toNat = 0 by omega]
      rfl
    rw [if_neg hlast]
    generalize hfirst : max rule.start ((last - 1) / singleGocMsgNum * singleGocMsgNum + 1) = first
    have hfirstLow : rule.start ≤ first := hfirst ▸ le_max_left _ _
    have hfirstHigh : first ≤ last := by
      rw [← hfirst]
      apply max_le (not_lt.mp hlast)
      unfold singleGocMsgNum
      omega
    have hsplit : (last - rule.start + 1).toNat =
        (last - first + 1).toNat + (first - 1 - rule.start + 1).toNat := by omega
    cases hdoc : documents (docNumber last) with
    | none =>
      rw [show (last - rule.start + 1).toNat = (last - rule.start).toNat + 1 by omega]
      simp [scanSlots, hdoc]
    | some doc =>
      have hround : ∀ k, last - ((last - first + 1).toNat : Int) < k → k ≤ last →
          documents (docNumber k) = some doc := by
        intro k hlow hhigh
        have hround : max rule.start ((last - 1) / singleGocMsgNum * singleGocMsgNum + 1) ≤ k := by
          rw [hfirst]
          omega
        rw [docNumber_of_round hround hhigh, hdoc]
      rw [hsplit, scanSlots_add hround hover, bind_some]
      dsimp only
      congr 1
      funext next
      by_cases hnext : 0 < next.overCountThrough
      · simp [hnext]
      simp only [if_neg hnext]
      rw [ih hnext (by omega)]
      congr 1
      omega

section Coverage

variable (rule documents) (watermark : Int)

/-- The messages are the rows of the history above `n`. -/
structure Scan.Reads (scan : Scan) (n : Int) : Prop where
  mem : ∀ row, row ∈ scan.messages ↔
    n < row.seq ∧ row.seq ≤ watermark ∧ documents.row rule.groupID row.seq = some row
  distinct : (scan.messages.map RetentionMessage.seq).Nodup

/-- The history above `n` is read and counted. -/
structure Scan.Covers (scan : Scan) (n : Int) : Prop
    extends Scan.Reads rule documents watermark scan n where
  readable : ∀ k, n < k → k ≤ watermark → (documents.row rule.groupID k).isSome
  visible : scan.visible = newer (documents.visibleAt rule.groupID) watermark n
  scanned : (scan.scanned : Int) = watermark - n
  bounded : scan.scanned ≤ imAppRetentionMaxSnapshot

/-- The scan stops at the row `n`. -/
def ScanRule.StopsAt (n : Int) : Prop :=
  rule.start < n ∧ ∃ t, documents.visibleAt rule.groupID n = some t ∧ t < rule.cutoff ∧
    rule.policy.maxMessages ≤ newer (documents.visibleAt rule.groupID) watermark n + 1

end Coverage

variable {row : RetentionMessage}

theorem row_seq {groupID : Text} (hrow : documents.row groupID k = some row) : row.seq = k := by
  unfold Documents.row slotRow at hrow
  simp only [bind_eq_some_iff] at hrow
  obtain ⟨_, _, _, _, hclassify⟩ := hrow
  exact imAppClassify_seq hclassify

theorem visibleAt_of_row {groupID : Text} (hrow : documents.row groupID k = some row) :
    documents.visibleAt groupID k =
      if row.visibility = .visible then some row.sendTime else none := by
  simp [Documents.visibleAt, hrow]

variable {watermark n : Int} {scan next : Scan}

theorem covers_empty : Scan.empty.Covers rule documents watermark watermark where
  mem row := by
    constructor
    · simp [Scan.empty]
    rintro ⟨hlow, hhigh, _⟩
    omega
  readable k hlow hhigh := by omega
  distinct := by simp [Scan.empty]
  visible := by simp [Scan.empty, newer]
  scanned := by simp [Scan.empty]
  bounded := by simp [Scan.empty]

/-- The effect of one admitted slot. -/
def readRow (rule : ScanRule) (n : Int) (scan : Scan) (row : RetentionMessage) : Scan :=
  { messages := scan.messages ++ [row]
    scanned := scan.scanned + 1
    visible := scan.visible + if row.visibility = .visible then 1 else 0
    overCountThrough :=
      if row.visibility = .visible ∧ rule.policy.maxMessages ≤ ((scan.visible + 1 : Nat) : Int) ∧
        row.sendTime < rule.cutoff ∧ rule.start < n then n - 1 else scan.overCountThrough }

theorem scanSlot_eq_some_iff : scanSlot rule doc n scan = some next ↔
      scan.scanned + 1 ≤ imAppRetentionMaxSnapshot ∧
        ∃ row, slotRow doc rule.groupID n = some row ∧ readRow rule n scan row = next := by
  unfold scanSlot
  by_cases hlimit : imAppRetentionMaxSnapshot < scan.scanned + 1
  · simp [hlimit, not_le.mpr hlimit]
  rw [if_neg hlimit, map_eq_some_iff]
  simp only [not_lt.mp hlimit, true_and]
  refine exists_congr fun row => and_congr_right fun _ => ?_
  apply Eq.congr_left
  unfold readRow
  by_cases hvis : row.visibility = .visible
  · simp only [hvis, if_true, true_and]
    split <;> rfl
  simp [hvis]

theorem covers_readRow (hcovers : scan.Covers rule documents watermark n) (hn : n ≤ watermark)
    (hlimit : scan.scanned + 1 ≤ imAppRetentionMaxSnapshot)
    (hrow : documents.row rule.groupID n = some row) :
    (readRow rule n scan row).Covers rule documents watermark (n - 1) := by
  have hseq := row_seq hrow
  refine ⟨⟨?_, ?_⟩, ?_, ?_, ?_, hlimit⟩
  · intro other
    simp only [readRow, mem_append, mem_singleton, hcovers.mem other]
    constructor
    · rintro (⟨hlow, hhigh, hother⟩ | rfl)
      · exact ⟨by omega, hhigh, hother⟩
      exact ⟨by omega, by omega, by rw [hseq, hrow]⟩
    rintro ⟨hlow, hhigh, hother⟩
    by_cases heq : other.seq = n
    · rw [heq, hrow] at hother
      exact .inr (some.inj hother).symm
    exact .inl ⟨by omega, hhigh, hother⟩
  · simp only [readRow, map_append, map_cons, map_nil]
    rw [nodup_append]
    refine ⟨hcovers.distinct, by simp, ?_⟩
    intro a ha b hb
    obtain ⟨other, hother, rfl⟩ := List.mem_map.mp ha
    obtain rfl := mem_singleton.mp hb
    have := ((hcovers.mem other).mp hother).1
    omega
  · intro k hlow hhigh
    by_cases heq : k = n
    · simp [heq, hrow]
    exact hcovers.readable k (by omega) hhigh
  · have hcover : n - 1 ⋖ n := ⟨by omega, fun k hlow hhigh => by omega⟩
    rw [newer_covBy hcover hn, ← hcovers.visible, visibleAt_of_row hrow]
    simp only [readRow]
    split <;> simp
  have := hcovers.scanned
  simp only [readRow]
  push_cast
  omega

theorem readRow_overCountThrough (hcovers : scan.Covers rule documents watermark n) (hrow : documents.row rule.groupID n = some row) :
    (rule.StopsAt documents watermark n ∧ (readRow rule n scan row).overCountThrough = n - 1) ∨
      (¬ rule.StopsAt documents watermark n ∧
        (readRow rule n scan row).overCountThrough = scan.overCountThrough) := by
  have hiff : rule.StopsAt documents watermark n ↔
      row.visibility = .visible ∧ rule.policy.maxMessages ≤ ((scan.visible + 1 : Nat) : Int) ∧
        row.sendTime < rule.cutoff ∧ rule.start < n := by
    unfold ScanRule.StopsAt
    rw [visibleAt_of_row hrow, hcovers.visible]
    by_cases hvis : row.visibility = .visible
    · simp only [hvis, if_true, some.injEq, exists_eq_left', true_and]
      push_cast
      tauto
    simp [hvis]
  by_cases hstops : rule.StopsAt documents watermark n
  · exact .inl ⟨hstops, if_pos (hiff.mp hstops)⟩
  exact .inr ⟨hstops, if_neg (fun h => hstops (hiff.mpr h))⟩

section Outcome

variable (rule documents) (watermark : Int)

/-- Nothing above `n` stopped the scan. -/
structure Scan.Running (scan : Scan) (n : Int) : Prop where
  covers : scan.Covers rule documents watermark n
  unstopped : ∀ k, n < k → k ≤ watermark → ¬ rule.StopsAt documents watermark k
  unsummarized : scan.overCountThrough = 0

/-- The scan stopped at its first chance, the row `stop`. -/
structure Scan.Stopped (scan : Scan) (stop : Int) : Prop where
  covers : scan.Covers rule documents watermark (stop - 1)
  stops : rule.StopsAt documents watermark stop
  first : ∀ k, stop < k → k ≤ watermark → ¬ rule.StopsAt documents watermark k
  summarized : scan.overCountThrough = stop - 1

end Outcome

theorem running_empty : Scan.empty.Running rule documents watermark watermark where
  covers := covers_empty
  unstopped k hlow hhigh := by omega
  unsummarized := rfl

theorem running_step (hdoc : documents (docNumber n) = some doc)
    (hrun : scan.Running rule documents watermark n) (hn : n ≤ watermark)
    (hstep : scanSlot rule doc n scan = some next) :
    next.Stopped rule documents watermark n ∨ next.Running rule documents watermark (n - 1) := by
  obtain ⟨hlimit, row, hslot, rfl⟩ := scanSlot_eq_some_iff.mp hstep
  have hrow : documents.row rule.groupID n = some row := by
    simp [Documents.row, hdoc, hslot]
  have hcovers := covers_readRow hrun.covers hn hlimit hrow
  rcases readRow_overCountThrough hrun.covers hrow with ⟨hstops, hover⟩ | ⟨hgoes, hover⟩
  · exact .inl ⟨hcovers, hstops, hrun.unstopped, hover⟩
  refine .inr ⟨hcovers, ?_, hover.trans hrun.unsummarized⟩
  intro k hlow hhigh
  by_cases heq : k = n
  · rw [heq]
    exact hgoes
  exact hrun.unstopped k (by omega) hhigh

theorem Scan.Running.not_summarized (hrun : scan.Running rule documents watermark n) :
    ¬ 0 < scan.overCountThrough := by
  rw [hrun.unsummarized]
  omega

theorem Scan.Stopped.summarized_pos (hstart : 1 ≤ rule.start)
    (hstopped : scan.Stopped rule documents watermark n) : 0 < scan.overCountThrough := by
  have := hstopped.stops.1
  rw [hstopped.summarized]
  omega

theorem scanSlots_outcome (hstart : 1 ≤ rule.start) {count : Nat}
    (hrun : scan.Running rule documents watermark n) (hn : n ≤ watermark)
    (hscan : scanSlots rule documents count n scan = some next) :
    (∃ stop, n - count < stop ∧ stop ≤ n ∧ next.Stopped rule documents watermark stop) ∨
      next.Running rule documents watermark (n - count) := by
  induction count generalizing n scan with
  | zero =>
    rw [scanSlots, some.injEq] at hscan
    subst hscan
    simpa using .inr hrun
  | succ count ih =>
    simp only [scanSlots, bind_eq_some_iff] at hscan
    obtain ⟨doc, hdoc, middle, hmiddle, hrest⟩ := hscan
    rcases running_step hdoc hrun hn hmiddle with hstopped | hstill
    · rw [if_pos (hstopped.summarized_pos hstart), some.injEq] at hrest
      subst hrest
      exact .inl ⟨n, by push_cast; omega, le_rfl, hstopped⟩
    rw [if_neg hstill.not_summarized] at hrest
    rcases ih hstill (by omega) hrest with ⟨stop, hlow, hhigh, hstopped⟩ | hfinished
    · exact .inl ⟨stop, by push_cast; omega, by omega, hstopped⟩
    refine .inr ?_
    rw [show n - ((count + 1 : Nat) : Int) = n - 1 - count by push_cast; omega]
    exact hfinished

theorem exists_stopped (hstart : 1 ≤ rule.start) (count : Nat) {stop : Int}
    (hrun : scan.Running rule documents watermark n) (hn : n ≤ watermark)
    (hlow : n - count < stop) (hhigh : stop ≤ n) (hstop : rule.StopsAt documents watermark stop)
    (hreadable : ∀ k, stop ≤ k → k ≤ n → (documents.row rule.groupID k).isSome)
    (hlimit : watermark - stop + 1 ≤ imAppRetentionMaxSnapshot) :
    ∃ next last, scanSlots rule documents count n scan = some next ∧ stop ≤ last ∧
      last ≤ n ∧ next.Stopped rule documents watermark last := by
  induction count generalizing n scan with
  | zero =>
    simp only [Nat.cast_zero] at hlow
    omega
  | succ count ih =>
    obtain ⟨row, hrow⟩ := isSome_iff_exists.mp (hreadable n hhigh le_rfl)
    have hslot := hrow
    unfold Documents.row at hslot
    obtain ⟨doc, hdoc, hslot⟩ := bind_eq_some_iff.mp hslot
    have hcount := hrun.covers.scanned
    have hstep : scanSlot rule doc n scan = some (readRow rule n scan row) :=
      scanSlot_eq_some_iff.mpr ⟨by omega, row, hslot, rfl⟩
    rw [scanSlots, hdoc, bind_some, hstep, bind_some]
    rcases running_step hdoc hrun hn hstep with hstopped | hstill
    · exact ⟨_, n, if_pos (hstopped.summarized_pos hstart), hhigh, le_rfl, hstopped⟩
    have hbelow : stop ≤ n - 1 := by
      by_contra habove
      obtain rfl : stop = n := by omega
      exact hstill.unstopped stop (by omega) hn hstop
    rw [if_neg hstill.not_summarized]
    obtain ⟨final, last, hfinal, hlast, hlastHigh, hstopped⟩ := ih hstill (by omega)
      (by push_cast at hlow; omega) hbelow
      (fun k hk hkn => hreadable k hk (by omega))
    exact ⟨final, last, hfinal, hlast, by omega, hstopped⟩

end ImApp.Retention
