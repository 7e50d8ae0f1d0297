import ImApp.Library.InterleavedCalls

/-!
Signed reports of what a desktop device has done. A delivery is parsed; one transaction then
checks the device, runs the handler and stores the operation id until the retention ends.
Where a unique constraint fails, the delivery is compared once more with what is stored.
-/

namespace ImApp.DesktopReports

open InterleavedCalls StepSystem List Option

/-- Milliseconds. -/
abbrev Time := Int

structure User where
  id : String
  workspaceType : String
  workspaceId : String

structure DesktopReportError where
  status : Nat
  code : String
  message : String

inductive Failure where
  | report (error : DesktopReportError)
  | uniqueConstraint
  | other

/-- The claims that a retry keeps. -/
structure StableClaims (Payload : Type) where
  keyId : String
  deviceId : String
  operationId : String
  userId : String
  workspaceType : String
  workspaceId : String
  payload : Payload
  deriving DecidableEq

structure Claims (Payload : Type) extends StableClaims Payload where
  issuedAt : Time
  expiresAt : Time

structure Report (Bytes Payload : Type) where
  protectedBytes : Bytes
  signature : Bytes
  stable : StableClaims Payload

structure Device (PublicKey : Type) where
  publicKey : PublicKey
  keyId : String
  active : Bool

/-- A stored report. The hash stands for the claims that it is computed from. -/
structure Stored (Payload : Type) where
  operationId : String
  userId : String
  deviceId : String
  payloadHash : StableClaims Payload
  expiresAt : Time
  createdAt : Time

variable {Input Bytes Raw Payload PublicKey Data : Type}

/-- `devices` is looked up by the device and its user. `data` is what the handlers work on. -/
structure Database (Payload PublicKey Data : Type) where
  reports : List (Stored Payload)
  devices : String → String → Option (Device PublicKey)
  data : Data

/-- The schemas and the verification of the signature. -/
structure Platform (Input Bytes Raw PublicKey : Type) where
  signedReport : Input → Option (Bytes × Bytes)
  reportClaims : Bytes → Option (Claims Raw)
  verify : PublicKey → Bytes → Bytes → Bool

/-- What a route passes on. -/
structure Route (Raw Payload Data : Type) where
  payloadSchema : Raw → Option Payload
  operationId : Payload → Option String
  handler : User → StableClaims Payload → Time → Data → Except Failure Data

def fail {α : Type} (status : Nat) (code message : String) : Except Failure α :=
  .error (.report ⟨status, code, message⟩)

variable (p : Platform Input Bytes Raw PublicKey)

def parseDesktopReport (route : Route Raw Payload Data) (user : User) (input : Input) (now : Time) :
    Except Failure (Report Bytes Payload) :=
  match p.signedReport input with
  | none => fail 400 "INVALID_DESKTOP_REPORT" "桌面执行报告格式无效"
  | some (protectedBytes, signature) =>
    match p.reportClaims protectedBytes with
    | none => fail 400 "INVALID_DESKTOP_REPORT" "桌面执行报告内容无效"
    | some claims =>
      if claims.userId ≠ user.id ∨ claims.workspaceType ≠ user.workspaceType ∨
          claims.workspaceId ≠ user.workspaceId then
        fail 403 "DESKTOP_REPORT_CONTEXT_MISMATCH" "桌面执行报告用户或工作空间不匹配"
      else if now + 30000 < claims.issuedAt ∨ claims.expiresAt ≤ now ∨
          60000 < claims.expiresAt - claims.issuedAt then
        fail 410 "DESKTOP_REPORT_EXPIRED" "桌面执行报告已过期或尚未生效"
      else
        match route.payloadSchema claims.payload with
        | none => fail 400 "INVALID_DESKTOP_REPORT_PAYLOAD" "桌面执行报告负载无效"
        | some payload =>
          if route.operationId payload ≠ some claims.operationId then
            fail 400 "DESKTOP_REPORT_OPERATION_MISMATCH" "桌面执行报告操作标识不匹配"
          else .ok ⟨protectedBytes, signature, { claims.toStableClaims with payload }⟩

variable [DecidableEq Payload]

def Stored.Matches (row : Stored Payload) (user : User) (report : Report Bytes Payload) : Prop :=
  row.userId = user.id ∧ row.deviceId = report.stable.deviceId ∧ row.payloadHash = report.stable

instance (row : Stored Payload) (user : User) (report : Report Bytes Payload) :
    Decidable (row.Matches user report) := inferInstanceAs (Decidable (_ ∧ _))

def matchingReport (reports : List (Stored Payload)) (report : Report Bytes Payload) (user : User) :
    Except Failure Bool :=
  match reports.find? (·.operationId = report.stable.operationId) with
  | none => .ok false
  | some existing => if existing.Matches user report then .ok true
    else fail 409 "DESKTOP_REPORT_REPLAYED" "桌面执行报告操作标识已被使用"

def storedReport (user : User) (report : Report Bytes Payload) (now : Time) (days : ℕ) :
    Stored Payload :=
  ⟨report.stable.operationId, user.id, report.stable.deviceId, report.stable,
    now + days * 24 * 60 * 60 * 1000, now⟩

/-- `DELETE … WHERE expires_at < ?` -/
def unexpired (reports : List (Stored Payload)) (now : Time) : List (Stored Payload) :=
  reports.filter fun row => now ≤ row.expiresAt

/-- The transaction; the flag says that the report is a duplicate. -/
def accept (route : Route Raw Payload Data) (user : User) (report : Report Bytes Payload) (now : Time)
    (days : ℕ) (db : Database Payload PublicKey Data) :
    Except Failure (Database Payload PublicKey Data × Bool) :=
  let reports := unexpired db.reports now
  match db.devices report.stable.deviceId user.id with
  | none => fail 404 "DEVICE_NOT_FOUND" "当前设备尚未注册"
  | some device =>
    if !device.active then fail 403 "DEVICE_REVOKED" "当前设备已被撤销"
    else if device.keyId ≠ report.stable.keyId then
      fail 403 "DEVICE_KEY_MISMATCH" "桌面执行报告设备密钥不匹配"
    else if !p.verify device.publicKey report.protectedBytes report.signature then
      fail 403 "INVALID_DESKTOP_REPORT_SIGNATURE" "桌面执行报告签名无效"
    else
      match matchingReport reports report user with
      | .error failure => .error failure
      | .ok true => .ok ({ db with reports }, true)
      | .ok false =>
        match route.handler user report.stable now db.data with
        | .error failure => .error failure
        | .ok data =>
          .ok ({ db with reports := storedReport user report now days :: reports, data }, false)

/-- Where a delivery stands: received, parsed, or after a unique constraint has failed. -/
inductive Delivery (Input Bytes Raw Payload Data : Type) where
  | received (route : Route Raw Payload Data) (user : User) (input : Input)
  | parsed (route : Route Raw Payload Data) (user : User) (report : Report Bytes Payload)
  | conflicting (user : User) (report : Report Bytes Payload)

/-- The database and the clock, with what was accepted and what was answered as a
duplicate so far, the last first. -/
structure World (Bytes Payload PublicKey Data : Type) where
  db : Database Payload PublicKey Data
  now : Time
  accepted : List (Stored Payload)
  duplicates : List (User × Report Bytes Payload)

/-- Devices are registered and revoked, other requests write, and time passes. -/
structure Change (PublicKey Data : Type) where
  devices : String → String → Option (Device PublicKey)
  data : Data
  elapsed : ℕ

def World.answered (w : World Bytes Payload PublicKey Data) (user : User)
    (report : Report Bytes Payload) : World Bytes Payload PublicKey Data :=
  { w with duplicates := (user, report) :: w.duplicates }

/-- `acceptDesktopReport`; `days` is the retention at the time. -/
def deliver (days : ℕ) (w : World Bytes Payload PublicKey Data) :
    Delivery Input Bytes Raw Payload Data →
      World Bytes Payload PublicKey Data × Option (Delivery Input Bytes Raw Payload Data)
  | .received route user input =>
    match parseDesktopReport p route user input w.now with
    | .error _ => (w, none)
    | .ok report => (w, some (.parsed route user report))
  | .parsed route user report =>
    match accept p route user report w.now days w.db with
    | .error .uniqueConstraint => (w, some (.conflicting user report))
    | .error _ => (w, none)
    | .ok (db, true) => ({ w with db }.answered user report, none)
    | .ok (db, false) =>
      ({ w with db, accepted := storedReport user report w.now days :: w.accepted }, none)
  | .conflicting user report =>
    match matchingReport w.db.reports report user with
    | .ok true => (w.answered user report, none)
    | _ => (w, none)

variable (Payload Data) in
def reportService : Service (World Bytes Payload PublicKey Data)
    (Delivery Input Bytes Raw Payload Data) ℕ (Change PublicKey Data) where
  initial w := w.db.reports = [] ∧ w.accepted = [] ∧ w.duplicates = []
  opens
    | .received .. => true
    | _ => false
  advance _ w call days := some (deliver p days w call)
  world w change := some { w with
    db := ⟨w.db.reports, change.devices, change.data⟩
    now := w.now + change.elapsed }

/-- The device is active and the report is signed with its key. -/
def Signed (db : Database Payload PublicKey Data) (user : User) (report : Report Bytes Payload) :
    Prop :=
  ∃ device, db.devices report.stable.deviceId user.id = some device ∧ device.active = true ∧
    device.keyId = report.stable.keyId ∧
    p.verify device.publicKey report.protectedBytes report.signature = true

/-- A delivery changes nothing, is a duplicate of a stored report, or is accepted. -/
inductive Effect (w : World Bytes Payload PublicKey Data) : World Bytes Payload PublicKey Data → Prop
  | refused : Effect w w
  | duplicate (user : User) (report : Report Bytes Payload) (reports : List (Stored Payload))
      (row : Stored Payload) (hreports : reports = w.db.reports ∨ reports = unexpired w.db.reports w.now)
      (hrow : row ∈ reports) (hid : row.operationId = report.stable.operationId)
      (hmatches : row.Matches user report) :
      Effect w ({ w with db := { w.db with reports } }.answered user report)
  | accepted (route : Route Raw Payload Data) (user : User) (report : Report Bytes Payload) (days : ℕ)
      (data : Data) (hsigned : Signed p w.db user report)
      (hnew : ∀ row ∈ unexpired w.db.reports w.now, row.operationId ≠ report.stable.operationId)
      (hhandler : route.handler user report.stable w.now w.db.data = .ok data) :
      Effect w { w with
        db := { w.db with
          reports := storedReport user report w.now days :: unexpired w.db.reports w.now
          data }
        accepted := storedReport user report w.now days :: w.accepted }

variable {p} {w : World Bytes Payload PublicKey Data} {reports : List (Stored Payload)}
  {report : Report Bytes Payload} {user : User}

theorem matchingReport_true (h : matchingReport reports report user = .ok true) :
    ∃ row ∈ reports, row.operationId = report.stable.operationId ∧ row.Matches user report := by
  unfold matchingReport at h
  split at h
  · cases h
  rename_i existing hfound
  split at h
  · exact ⟨existing, mem_of_find?_eq_some hfound, by simpa using find?_some hfound, ‹_›⟩
  cases h

theorem matchingReport_false (h : matchingReport reports report user = .ok false) :
    ∀ row ∈ reports, row.operationId ≠ report.stable.operationId := by
  unfold matchingReport at h
  split at h
  · rename_i hnone
    simpa using find?_eq_none.mp hnone
  split at h <;> cases h

theorem accept_ok {route : Route Raw Payload Data} {now : Time} {days : ℕ}
    {db next : Database Payload PublicKey Data} {duplicate : Bool}
    (h : accept p route user report now days db = .ok (next, duplicate)) : Signed p db user report ∧
      ((duplicate = true ∧ matchingReport (unexpired db.reports now) report user = .ok true ∧
        next = { db with reports := unexpired db.reports now }) ∨
      duplicate = false ∧ matchingReport (unexpired db.reports now) report user = .ok false ∧
        ∃ data, route.handler user report.stable now db.data = .ok data ∧ next = { db with
          reports := storedReport user report now days :: unexpired db.reports now, data }) := by
  unfold accept at h
  simp only [] at h
  split at h
  · cases h
  rename_i device hdevice
  split at h
  · cases h
  rename_i hactive
  split at h
  · cases h
  rename_i hkey
  split at h
  · cases h
  rename_i hverified
  refine ⟨⟨device, hdevice, by simpa using hactive, by simpa using hkey, by simpa using hverified⟩, ?_⟩
  split at h
  · cases h
  · rename_i hmatch
    cases h
    exact .inl ⟨rfl, hmatch, rfl⟩
  rename_i hmatch
  split at h
  · cases h
  rename_i data hhandler
  cases h
  exact .inr ⟨rfl, hmatch, data, hhandler, rfl⟩

theorem deliver_effect (days : ℕ) (w : World Bytes Payload PublicKey Data)
    (call : Delivery Input Bytes Raw Payload Data) : Effect p w (deliver p days w call).1 := by
  cases call with
  | received route user input =>
    simp only [deliver]
    split <;> exact .refused
  | parsed route user report =>
    simp only [deliver]
    split
    · exact .refused
    · exact .refused
    · rename_i db haccept
      obtain ⟨-, ⟨-, hmatch, rfl⟩ | ⟨hnot, -⟩⟩ := accept_ok haccept
      · obtain ⟨row, hrow, hid, hmatches⟩ := matchingReport_true hmatch
        exact .duplicate user report _ row (.inr rfl) hrow hid hmatches
      cases hnot
    rename_i db haccept
    obtain ⟨hsigned, ⟨hnot, -⟩ | ⟨-, hmatch, data, hhandler, rfl⟩⟩ := accept_ok haccept
    · cases hnot
    exact .accepted route user report days data hsigned (matchingReport_false hmatch) hhandler
  | conflicting user report =>
    simp only [deliver]
    split
    · rename_i hmatch
      obtain ⟨row, hrow, hid, hmatches⟩ := matchingReport_true hmatch
      exact .duplicate user report _ row (.inl rfl) hrow hid hmatches
    exact .refused

structure Sound (w : World Bytes Payload PublicKey Data) : Prop where
  stored : ∀ row ∈ w.db.reports, row ∈ w.accepted
  kept : ∀ row ∈ w.accepted, row ∈ w.db.reports ∨ row.expiresAt < w.now
  once : w.accepted.Pairwise fun later earlier =>
    later.operationId = earlier.operationId → earlier.expiresAt < later.createdAt
  justified : ∀ answer ∈ w.duplicates, ∃ row ∈ w.accepted,
    row.operationId = answer.2.stable.operationId ∧ row.Matches answer.1 answer.2

omit [DecidableEq Payload] in
theorem mem_unexpired {row : Stored Payload} {now : Time} :
    row ∈ unexpired reports now ↔ row ∈ reports ∧ now ≤ row.expiresAt := by
  simp [unexpired]

omit [DecidableEq Payload] in
theorem Sound.effect (h : Sound w) {w' : World Bytes Payload PublicKey Data}
    (heffect : Effect p w w') : Sound w' := by
  have hlive : ∀ row ∈ w.accepted, row ∈ unexpired w.db.reports w.now ∨ row.expiresAt < w.now := by
    intro row hrow
    rcases h.kept row hrow with hstored | hexp
    · by_cases hle : w.now ≤ row.expiresAt
      · exact .inl (mem_unexpired.mpr ⟨hstored, hle⟩)
      exact .inr (Int.not_le.mp hle)
    exact .inr hexp
  cases heffect with
  | refused => exact h
  | duplicate user report reports row hreports hrow hid hmatches =>
    have hfrom : ∀ other ∈ reports, other ∈ w.accepted := by
      rcases hreports with rfl | rfl
      · exact h.stored
      exact fun other hother => h.stored other (mem_unexpired.mp hother).1
    refine ⟨hfrom, ?_, h.once, ?_⟩
    · rcases hreports with rfl | rfl
      · exact h.kept
      exact hlive
    intro answer hanswer
    rcases mem_cons.mp hanswer with rfl | hold
    · exact ⟨row, hfrom row hrow, hid, hmatches⟩
    exact h.justified answer hold
  | accepted route user report days data hsigned hnew hhandler =>
    refine ⟨?_, ?_, ?_, ?_⟩
    · intro row hrow
      rcases mem_cons.mp hrow with rfl | hold
      · exact mem_cons_self
      exact mem_cons_of_mem _ (h.stored row (mem_unexpired.mp hold).1)
    · intro row hrow
      rcases mem_cons.mp hrow with rfl | hold
      · exact .inl mem_cons_self
      exact (hlive row hold).imp_left (mem_cons_of_mem _)
    · refine pairwise_cons.mpr ⟨fun row hrow hid => ?_, h.once⟩
      exact (hlive row hrow).resolve_left fun hstored => hnew row hstored hid.symm
    intro answer hanswer
    obtain ⟨row, hrow, hmatches⟩ := h.justified answer hanswer
    exact ⟨row, mem_cons_of_mem _ hrow, hmatches⟩

/-- In every run the effects of an operation id are committed once as long as it is kept, a
duplicate repeats a report that was accepted, each step has one of the three effects, and a
transaction that fails, as it does where the handler throws, has none. -/
theorem reports_once (p : Platform Input Bytes Raw PublicKey) :
    (∀ s, (reportService Payload Data p).machine.Reachable s → Sound s.data) ∧
    (∀ s id days t, (reportService Payload Data p).machine.step s
      (.advance id days) = some t → Effect p s.data t.data) ∧
    ∀ (w : World Bytes Payload PublicKey Data) route user report days failure,
      accept p route user report w.now days w.db = .error failure →
        (deliver p days w (.parsed route user report)).1 = w := by
  refine ⟨?_, ?_, ?_⟩
  · intro s hs
    suffices hholds : Service.Holds Sound (fun _ _ _ => True) s from hholds.data
    apply Service.holds_of_reachable _ _ _ _ hs
    · rintro w ⟨hreports, hacc, hduplicates⟩
      exact ⟨by simp [hreports], by simp [hacc], by simp [hacc], by simp [hduplicates]⟩
    · exact fun _ _ _ _ _ _ => trivial
    · intro before id call days w next _ hpre _ hnext
      have heffect := deliver_effect (p := p) days before.data call
      rw [some.inj hnext] at heffect
      exact ⟨hpre.data.effect heffect, fun _ _ => trivial, fun _ _ _ _ => trivial⟩
    intro before change w _ hpre hworld
    cases hworld
    refine ⟨⟨hpre.data.stored, ?_, hpre.data.once, hpre.data.justified⟩, fun _ _ _ => trivial⟩
    intro row hrow
    exact (hpre.data.kept row hrow).imp_right fun hexp =>
      Int.lt_of_lt_of_le hexp (Int.le_add_of_nonneg_right (Int.natCast_nonneg _))
  · intro s id days t hstep
    obtain ⟨call, w, next, -, hnext, rfl⟩ := Service.advance_some hstep
    have heffect := deliver_effect (p := p) days s.data call
    rwa [some.inj hnext] at heffect
  intro w route user report days failure hfailed
  simp only [deliver, hfailed]
  cases failure <;> rfl

end ImApp.DesktopReports
