import ImApp.Auth.Sessions

/-!
Codes sent by SMS. A verification reads the latest usable code and its attempts, compares
the hash, and then counts the failure or consumes the code, in four statements. Others may
run between them, and whether the last one changed the row is not asked.
-/

namespace ImApp.Auth

open InterleavedCalls StepSystem List KeyedTable Option

def smsMaxAttempts : ℕ := 5

/-- Ten minutes, in seconds. -/
def smsCodeTTL : ℕ := 600

/-- A row of `sms_codes`. -/
structure SMSCode where
  id : ℕ
  phone : String
  scene : String
  codeHash : String
  attempts : ℕ
  consumed : Bool
  expiresAt : ℕ

abbrev SMSCodes := KeyedTable SMSCode.id

/-- The rows by ascending id with the clock, and the history: a row for each attempt that
passed the limit and so is compared with it, and the row of each code that was accepted,
none for a code that stands for all. -/
structure CodeData where
  codes : SMSCodes
  now : ℕ
  evaluated : List ℕ
  accepted : List (Option ℕ)

/-- A verification by the statement it is about to run. -/
inductive VerifyCall where
  | verify (phone scene code : String)
  | comparing (id : ℕ) (codeHash : String)
  | counting (id : ℕ)
  | consuming (id : ℕ)

inductive CodeEvent where
  | send (phone scene code : String)
  | wait (seconds : ℕ)

/-- The code for development, if there is one, and the hash of a code. -/
structure CodeConfig where
  DevSMSCode : String
  hashHex : String → String

/-- The code of the development environment and the internal code. -/
def CodeConfig.wildcard (config : CodeConfig) (code : String) : Bool :=
  (config.DevSMSCode ≠ "" && code = config.DevSMSCode) || code = "568520"

/-- `consumed_at IS NULL AND expires_at > NOW() ORDER BY id DESC LIMIT 1` -/
def selectCode (d : CodeData) (phone scene : String) : Option SMSCode :=
  d.codes.rows.reverse.find? fun row =>
    row.phone = phone && row.scene = scene && !row.consumed && d.now < row.expiresAt

def storedHash (d : CodeData) (id : ℕ) (reply : Reply) : String :=
  if reply = .answered then
    match d.codes.rows.find? fun row => row.id = id with
    | some row => row.codeHash
    | none => ""
  else ""

def countAttempt : KeyedTable.Edit SMSCode.id where
  apply := fun row => { row with attempts := row.attempts + 1 }
  key_apply := fun _ => rfl

def consume : KeyedTable.Edit SMSCode.id where
  apply := fun row => { row with consumed := true }
  key_apply := fun _ => rfl

def CodeData.count (d : CodeData) (id : ℕ) : CodeData :=
  { d with codes := d.codes.update (fun row => row.id = id) countAttempt }

def CodeData.consume (d : CodeData) (id : ℕ) : CodeData :=
  { d with codes := d.codes.update (fun row => row.id = id && !row.consumed) Auth.consume }

def CodeData.accept (d : CodeData) (id : Option ℕ) : CodeData :=
  { d with accepted := id :: d.accepted }

/-- The first two steps of `verifySMSCode`: the codes that are not looked up, then the
latest usable row and its attempts. -/
def readAttempts (config : CodeConfig) (d : CodeData) (phone scene code : String) (reply : Reply) :
    CodeData × Option VerifyCall :=
  if code = "" then (d, none)
  else if config.wildcard code then (d.accept none, none)
  else if reply = .answered then
    match selectCode d phone scene with
    | none => (d, none)
    | some row =>
      if smsMaxAttempts ≤ row.attempts then (d, none)
      else ({ d with evaluated := row.id :: d.evaluated }, some (.comparing row.id (config.hashHex code)))
  else (d, none)

/-- `verifySMSCode`. Errors of the comparison and of the count are ignored. -/
def verifySMSCode (config : CodeConfig) (d : CodeData) (call : VerifyCall) (reply : Reply) :
    CodeData × Option VerifyCall :=
  match call with
  | .verify phone scene code => readAttempts config d phone scene code reply
  | .comparing id codeHash =>
    if storedHash d id reply ≠ codeHash then (d, some (.counting id)) else (d, some (.consuming id))
  | .counting id => if reply = .failed then (d, none) else (d.count id, none)
  | .consuming id =>
    if reply = .failed then (d, none)
    else if reply = .answered then ((d.consume id).accept (some id), none)
    else (d.consume id, none)

def VerifyCall.opens : VerifyCall → Bool
  | .verify _ _ _ => true
  | _ => false

def newCode (config : CodeConfig) (d : CodeData) (phone scene code : String) : SMSCode :=
  ⟨d.codes.rows.length, phone, scene, config.hashHex code, 0, false, d.now + smsCodeTTL⟩

/-- The insert of `SendSMS`. -/
def sendCode (config : CodeConfig) (d : CodeData) (phone scene code : String) : CodeData :=
  { d with codes := d.codes.insert (newCode config d phone scene code) }

/-- Verifications of any phone and scene, with codes being sent and time going on. -/
def codeService (config : CodeConfig) : Service CodeData VerifyCall Reply CodeEvent where
  initial := fun d => d.codes = KeyedTable.empty ∧ d.evaluated = [] ∧ d.accepted = []
  opens := VerifyCall.opens
  advance := fun _ d call reply => some (verifySMSCode config d call reply)
  world := fun d event =>
    match event with
    | .send phone scene code => some (sendCode config d phone scene code)
    | .wait seconds => some { d with now := d.now + seconds }

/-- A code is accepted once and compared with five attempts, at most. -/
structure Limited (d : CodeData) : Prop where
  accepted : ∀ id, d.accepted.count (some id) ≤ 1
  evaluated : ∀ id, d.evaluated.count id ≤ smsMaxAttempts

/-- The row that a verification is working on. -/
def VerifyCall.codeId : VerifyCall → Option ℕ
  | .verify _ _ _ => none
  | .comparing id _ | .counting id | .consuming id => some id

def Checking (s : State CodeData VerifyCall) (other : ℕ) (id : ℕ) : Prop :=
  ∃ call, s.calls other = some call ∧ call.codeId = some id

/-- Where a verification reads the attempts of a row, the attempts and the verifications
that are still working on the row leave room for one more; no count and no consumption
fails; and an accepted code had not been consumed. -/
def Guarded (config : CodeConfig) (s : State CodeData VerifyCall) :
    Action VerifyCall Reply CodeEvent → Prop
  | .advance id reply =>
    (∀ phone scene code row, s.calls id = some (.verify phone scene code) → code ≠ "" →
      config.wildcard code = false → reply = .answered → selectCode s.data phone scene = some row →
        row.attempts < smsMaxAttempts → ∀ others : List ℕ, others.Nodup →
          (∀ other ∈ others, Checking s other row.id) → row.attempts + others.length < smsMaxAttempts) ∧
    (∀ code, s.calls id = some (.counting code) → reply ≠ .failed) ∧
    ∀ code, s.calls id = some (.consuming code) → reply ≠ .failed ∧
      (reply = .answered → ∃ row ∈ s.data.codes.rows, row.id = code ∧ row.consumed = false)
  | _ => True

/-- As many attempts as the row has counted, but for those still in progress. -/
def Counted (s : State CodeData VerifyCall) (row : SMSCode) : Prop :=
  ∃ others : List ℕ, others.Nodup ∧ (∀ other ∈ others, Checking s other row.id) ∧
    s.data.evaluated.count row.id ≤ row.attempts + others.length

structure Accounted (s : State CodeData VerifyCall) : Prop where
  ids : s.data.codes.rows.map SMSCode.id = List.range s.data.codes.rows.length
  known : ∀ id ∈ s.data.evaluated, id < s.data.codes.rows.length
  limited : Limited s.data
  consumed : ∀ row ∈ s.data.codes.rows, some row.id ∈ s.data.accepted → row.consumed = true
  acceptedKnown : ∀ id, some id ∈ s.data.accepted → id < s.data.codes.rows.length
  counted : ∀ row ∈ s.data.codes.rows, row.consumed = false → Counted s row

variable {config : CodeConfig} {s : State CodeData VerifyCall} {d : CodeData} {id code : ℕ}
  {call : VerifyCall} {next : Option VerifyCall} {row : SMSCode}

theorem Checking.kept {other : ℕ} (h : Checking s other code) (hother : other ≠ id) :
    Checking ⟨d, setCall s.calls id next⟩ other code := by
  obtain ⟨call, hcall, hcode⟩ := h
  exact ⟨call, (setCall_of_ne next hother).trans hcall, hcode⟩

theorem Counted.other (h : Counted s row) (hcall : ∀ call, s.calls id = some call → call.codeId ≠ some row.id)
    (hevaluated : d.evaluated.count row.id = s.data.evaluated.count row.id) :
    Counted ⟨d, setCall s.calls id next⟩ row := by
  obtain ⟨others, hnodup, hchecking, hcount⟩ := h
  refine ⟨others, hnodup, ?_, hevaluated.trans_le hcount⟩
  intro other hother
  apply (hchecking other hother).kept
  rintro rfl
  obtain ⟨call, hcur, hcode⟩ := hchecking other hother
  exact hcall call hcur hcode

theorem selectCode_some {phone scene : String} (h : selectCode d phone scene = some row) :
    row ∈ d.codes.rows ∧ row.consumed = false := by
  have hmem := mem_reverse.mp (mem_of_find?_eq_some h)
  have husable := find?_some h
  simp only [Bool.and_eq_true, Bool.not_eq_true'] at husable
  exact ⟨hmem, husable.1.2⟩

theorem Accounted.same (h : Accounted s) (hcodes : d.codes = s.data.codes)
    (hevaluated : d.evaluated = s.data.evaluated)
    (hcounts : ∀ code, d.accepted.count (some code) = s.data.accepted.count (some code))
    (hcall : ∀ call code, s.calls id = some call → call.codeId = some code →
      ∃ current, next = some current ∧ current.codeId = some code) :
    Accounted ⟨d, setCall s.calls id next⟩ := by
  have hacc : ∀ code, some code ∈ d.accepted ↔ some code ∈ s.data.accepted := by
    intro code
    rw [← count_pos_iff, ← count_pos_iff, hcounts code]
  constructor
  · change d.codes.rows.map SMSCode.id = List.range d.codes.rows.length
    rw [hcodes]
    exact h.ids
  · intro code hcode
    change code < d.codes.rows.length
    change code ∈ d.evaluated at hcode
    rw [hevaluated] at hcode
    rw [hcodes]
    exact h.known code hcode
  · constructor
    · intro code
      exact (hcounts code).trans_le (h.limited.accepted code)
    intro code
    change d.evaluated.count code ≤ smsMaxAttempts
    rw [hevaluated]
    exact h.limited.evaluated code
  · intro row hrow hmem
    change row ∈ d.codes.rows at hrow
    rw [hcodes] at hrow
    exact h.consumed row hrow ((hacc row.id).mp hmem)
  · intro code hmem
    change code < d.codes.rows.length
    rw [hcodes]
    exact h.acceptedKnown code ((hacc code).mp hmem)
  intro row hrow hopen
  change row ∈ d.codes.rows at hrow
  rw [hcodes] at hrow
  obtain ⟨others, hnodup, hchecking, hcount⟩ := h.counted row hrow hopen
  refine ⟨others, hnodup, ?_, ?_⟩
  · intro other hother
    by_cases hid : other = id
    · subst hid
      obtain ⟨call, hcur, hcode⟩ := hchecking other hother
      obtain ⟨after, hafter, hsame⟩ := hcall call row.id hcur hcode
      exact ⟨after, (setCall_self ..).trans hafter, hsame⟩
    exact (hchecking other hother).kept hid
  change d.evaluated.count row.id ≤ row.attempts + others.length
  rw [hevaluated]
  exact hcount

theorem Accounted.evaluate (h : Accounted s) (hfree : ∀ call, s.calls id = some call → call.codeId = none)
    (hrow : row ∈ s.data.codes.rows) (hopen : row.consumed = false)
    (hroom : ∀ others : List ℕ, others.Nodup → (∀ other ∈ others, Checking s other row.id) →
      row.attempts + others.length < smsMaxAttempts) {codeHash : String} :
    Accounted ⟨{ s.data with evaluated := row.id :: s.data.evaluated },
      setCall s.calls id (some (.comparing row.id codeHash))⟩ := by
  obtain ⟨others, hnodup, hchecking, hcount⟩ := h.counted row hrow hopen
  have hlt := hroom others hnodup hchecking
  have hlen : row.id < s.data.codes.rows.length := by
    apply mem_range.mp
    rw [← h.ids]
    exact mem_map_of_mem hrow
  refine ⟨h.ids, ?_, ⟨h.limited.accepted, ?_⟩, h.consumed, h.acceptedKnown, ?_⟩
  · intro code hcode
    rcases mem_cons.mp hcode with rfl | hpre
    · exact hlen
    exact h.known code hpre
  · intro code
    change (row.id :: s.data.evaluated).count code ≤ smsMaxAttempts
    by_cases hcode : row.id = code
    · subst hcode
      rw [count_cons_self]
      omega
    rw [count_cons_of_ne hcode]
    exact h.limited.evaluated code
  intro other hother hotherOpen
  by_cases hsame : other.id = row.id
  · obtain rfl := eq_of_key hother hrow hsame
    have hnew : id ∉ others := by
      intro hmem
      obtain ⟨call, hcall, hcode⟩ := hchecking id hmem
      rw [hfree call hcall] at hcode
      cases hcode
    refine ⟨id :: others, nodup_cons.mpr ⟨hnew, hnodup⟩, ?_, ?_⟩
    · intro checker hchecker
      rcases mem_cons.mp hchecker with rfl | hpre
      · exact ⟨_, setCall_self .., rfl⟩
      apply (hchecking checker hpre).kept
      rintro rfl
      exact hnew hpre
    change (other.id :: s.data.evaluated).count other.id ≤ other.attempts + (id :: others).length
    rw [count_cons_self, length_cons]
    omega
  apply (h.counted other hother hotherOpen).other
  · intro call hcall hcode
    rw [hfree call hcall] at hcode
    cases hcode
  exact count_cons_of_ne (fun hid => hsame hid.symm)

theorem mem_written {p : SMSCode → Bool} {edit : KeyedTable.Edit SMSCode.id}
    (hrow : row ∈ (d.codes.update p edit).rows) : ∃ before ∈ d.codes.rows, before.id = row.id ∧
      ((p before = true ∧ row = edit.apply before) ∨ (p before = false ∧ row = before)) := by
  rcases mem_update hrow with ⟨before, hpre, hp, rfl⟩ | ⟨hpre, hp⟩
  · exact ⟨before, hpre, (edit.key_apply before).symm, .inl ⟨hp, rfl⟩⟩
  exact ⟨row, hpre, rfl, .inr ⟨hp, rfl⟩⟩

theorem Accounted.count (h : Accounted s) (hcall : s.calls id = some (.counting code)) :
    Accounted ⟨s.data.count code, setCall s.calls id none⟩ := by
  have hlen : (s.data.count code).codes.rows.length = s.data.codes.rows.length := size_update
  constructor
  · change (s.data.count code).codes.rows.map SMSCode.id = List.range (s.data.count code).codes.rows.length
    rw [hlen, ← h.ids]
    exact map_update (KeyedTable.Edit.key_apply _)
  · intro other hother
    rw [hlen]
    exact h.known other hother
  · exact ⟨h.limited.accepted, h.limited.evaluated⟩
  · intro row hrow hmem
    obtain ⟨before, hpre, hid, ⟨-, rfl⟩ | ⟨-, rfl⟩⟩ := mem_written hrow
    · exact h.consumed before hpre hmem
    exact h.consumed row hpre hmem
  · intro other hother
    rw [hlen]
    exact h.acceptedKnown other hother
  intro row hrow hopen
  obtain ⟨before, hpre, hid, ⟨hp, rfl⟩ | ⟨hp, rfl⟩⟩ := mem_written hrow
  · -- the count replaces this verification's share
    obtain ⟨others, hnodup, hchecking, hcount⟩ := h.counted before hpre hopen
    refine ⟨others.erase id, hnodup.erase id, ?_, ?_⟩
    · intro other hother
      obtain ⟨hne, hmem⟩ := (hnodup.mem_erase_iff).mp hother
      exact (hchecking other hmem).kept hne
    have herase : others.length ≤ (others.erase id).length + 1 := by
      rw [length_erase]
      split <;> omega
    change s.data.evaluated.count before.id ≤ before.attempts + 1 + (others.erase id).length
    omega
  apply (h.counted row hpre hopen).other
  · intro call hcur hsame
    cases hcall.symm.trans hcur
    exact of_decide_eq_false hp (some.inj hsame).symm
  rfl

theorem Accounted.consume (h : Accounted s) (hcall : s.calls id = some (.consuming code))
    {accepted : List (Option ℕ)}
    (hacc : accepted = s.data.accepted ∨ accepted = some code :: s.data.accepted ∧
      ∃ row ∈ s.data.codes.rows, row.id = code ∧ row.consumed = false) :
    Accounted ⟨{ s.data.consume code with accepted := accepted }, setCall s.calls id none⟩ := by
  have hlen : (s.data.consume code).codes.rows.length = s.data.codes.rows.length := size_update
  constructor
  · change (s.data.consume code).codes.rows.map SMSCode.id = List.range (s.data.consume code).codes.rows.length
    rw [hlen, ← h.ids]
    exact map_update (KeyedTable.Edit.key_apply _)
  · intro other hother
    change other < (s.data.consume code).codes.rows.length
    rw [hlen]
    exact h.known other hother
  · refine ⟨?_, h.limited.evaluated⟩
    intro other
    rcases hacc with rfl | ⟨rfl, fresh, hfresh, hid, hopen⟩
    · exact h.limited.accepted other
    change (some code :: s.data.accepted).count (some other) ≤ 1
    by_cases hother : code = other
    · subst hother
      have hnot : some code ∉ s.data.accepted := by
        intro hmem
        rw [← hid] at hmem
        have hconsumed := h.consumed fresh hfresh hmem
        rw [hopen] at hconsumed
        cases hconsumed
      rw [count_cons_self, count_eq_zero_of_not_mem hnot]
    have hne : some code ≠ some other := fun hsame => hother (some.inj hsame)
    rw [count_cons_of_ne hne]
    exact h.limited.accepted other
  · intro row hrow hmem
    obtain ⟨before, hpre, hid, ⟨-, rfl⟩ | ⟨hp, rfl⟩⟩ := mem_written hrow
    · rfl
    rcases hacc with rfl | ⟨rfl, -⟩
    · exact h.consumed row hpre hmem
    rcases mem_cons.mp hmem with hself | hold
    · rw [some.inj hself, decide_eq_true rfl, Bool.true_and, Bool.not_eq_false'] at hp
      exact hp
    exact h.consumed row hpre hold
  · intro other hmem
    change other < (s.data.consume code).codes.rows.length
    rw [hlen]
    rcases hacc with rfl | ⟨rfl, row, hrow, hid, -⟩
    · exact h.acceptedKnown other hmem
    rcases mem_cons.mp hmem with hself | hold
    · rw [some.inj hself, ← hid]
      apply mem_range.mp
      rw [← h.ids]
      exact mem_map_of_mem hrow
    exact h.acceptedKnown other hold
  intro row hrow hopen
  obtain ⟨before, hpre, hid, ⟨-, rfl⟩ | ⟨hp, rfl⟩⟩ := mem_written hrow
  · cases hopen
  apply (h.counted row hpre hopen).other
  · intro call hcur hsame
    cases hcall.symm.trans hcur
    rw [some.inj hsame, hopen, decide_eq_true rfl] at hp
    cases hp
  rfl

theorem Accounted.send (h : Accounted s) {phone scene sent : String} :
    Accounted ⟨sendCode config s.data phone scene sent, s.calls⟩ := by
  have hfresh : (newCode config s.data phone scene sent).id ∉ s.data.codes.rows.map SMSCode.id := by
    rw [h.ids]
    exact not_mem_range_self
  have hrows : (sendCode config s.data phone scene sent).codes.rows =
      s.data.codes.rows ++ [newCode config s.data phone scene sent] := if_neg hfresh
  have hlen : (sendCode config s.data phone scene sent).codes.rows.length =
      s.data.codes.rows.length + 1 := by
    rw [hrows, length_append]
    rfl
  have hnew : s.data.evaluated.count s.data.codes.rows.length = 0 := by
    apply count_eq_zero_of_not_mem
    intro hmem
    exact Nat.lt_irrefl _ (h.known _ hmem)
  constructor
  · change (sendCode config s.data phone scene sent).codes.rows.map SMSCode.id = _
    rw [hlen, hrows, map_append, h.ids]
    exact range_succ.symm
  · intro other hother
    rw [hlen]
    exact Nat.lt_succ_of_lt (h.known other hother)
  · exact ⟨h.limited.accepted, h.limited.evaluated⟩
  · intro row hrow hmem
    rcases mem_insert hrow with hpre | rfl
    · exact h.consumed row hpre hmem
    exact absurd (h.acceptedKnown _ hmem) (Nat.lt_irrefl _)
  · intro other hmem
    rw [hlen]
    exact Nat.lt_succ_of_lt (h.acceptedKnown other hmem)
  intro row hrow hopen
  rcases mem_insert hrow with hpre | rfl
  · exact h.counted row hpre hopen
  refine ⟨[], nodup_nil, ?_, ?_⟩
  · intro other hother
    cases hother
  change s.data.evaluated.count s.data.codes.rows.length ≤ _
  rw [hnew]
  exact Nat.zero_le _

theorem readAttempts_accounted (h : Accounted s) {phone scene sent : String} {reply : Reply}
    (hcall : s.calls id = some (.verify phone scene sent))
    (hroom : ∀ row, sent ≠ "" → config.wildcard sent = false → reply = .answered →
      selectCode s.data phone scene = some row → row.attempts < smsMaxAttempts →
        ∀ others : List ℕ, others.Nodup → (∀ other ∈ others, Checking s other row.id) →
          row.attempts + others.length < smsMaxAttempts) :
    Accounted ⟨(readAttempts config s.data phone scene sent reply).1,
      setCall s.calls id (readAttempts config s.data phone scene sent reply).2⟩ := by
  have hfree : ∀ call, s.calls id = some call → call.codeId = none := by
    intro call hcur
    cases hcall.symm.trans hcur
    rfl
  have hnone : ∀ call code, s.calls id = some call → call.codeId = some code →
      ∃ current : VerifyCall, (none : Option VerifyCall) = some current ∧ current.codeId = some code := by
    intro call code hcur hcode
    rw [hfree call hcur] at hcode
    cases hcode
  have hend : Accounted ⟨s.data, setCall s.calls id none⟩ := h.same rfl rfl (fun _ => rfl) hnone
  unfold readAttempts
  split
  · exact hend
  rename_i hsent
  split
  · apply h.same (d := s.data.accept none) rfl rfl _ hnone
    intro code
    exact count_cons_of_ne (fun hsame => by cases hsame)
  rename_i hwildcard
  split
  · rename_i hans
    split
    · exact hend
    rename_i row hselect
    split
    · exact hend
    rename_i hattempts
    obtain ⟨hrow, hopen⟩ := selectCode_some hselect
    exact h.evaluate hfree hrow hopen
      (hroom row hsent (Bool.eq_false_iff.mpr hwildcard) hans hselect (by omega))
  exact hend

theorem codes_accounted (hs : (codeService config).machine.ReachableBy (Guarded config) s) : Accounted s := by
  apply hs.invariant Accounted
  · rintro start ⟨⟨hcodes, hevaluated, hacc⟩, hnone⟩
    constructor
    · rw [hcodes]
      rfl
    · intro code hcode
      rw [hevaluated] at hcode
      cases hcode
    · constructor
      · intro code
        rw [hacc]
        exact Nat.zero_le _
      intro code
      rw [hevaluated]
      exact Nat.zero_le _
    · intro row hrow
      rw [hcodes] at hrow
      cases hrow
    · intro code hcode
      rw [hacc] at hcode
      cases hcode
    intro row hrow
    rw [hcodes] at hrow
    cases hrow
  intro before action after hallow hpre hstep
  cases action with
  | start id call =>
    obtain ⟨hfree, -, rfl⟩ := Service.start_some hstep
    apply hpre.same rfl rfl (fun _ => rfl)
    intro current code hcur
    rw [hfree] at hcur
    cases hcur
  | advance id reply =>
    obtain ⟨call, data, next, hcall, hadv, rfl⟩ := Service.advance_some hstep
    have hres : verifySMSCode config before.data call reply = (data, next) := some.inj hadv
    obtain ⟨hreads, hcounts, hconsumes⟩ := hallow
    have hkept : Accounted ⟨(verifySMSCode config before.data call reply).1,
        setCall before.calls id (verifySMSCode config before.data call reply).2⟩ := by
      cases call with
      | verify phone scene sent =>
        apply readAttempts_accounted hpre hcall
        intro row hsent hwildcard hans hselect
        exact hreads phone scene sent row hcall hsent hwildcard hans hselect
      | comparing code codeHash =>
        have hstays : ∀ call other, before.calls id = some call → call.codeId = some other →
            other = code := by
          intro call other hcur hcode
          cases hcall.symm.trans hcur
          exact (some.inj hcode).symm
        simp only [verifySMSCode]
        split <;>
        · apply hpre.same rfl rfl (fun _ => rfl)
          intro call other hcur hcode
          exact ⟨_, rfl, congrArg some (hstays call other hcur hcode).symm⟩
      | counting code =>
        simp only [verifySMSCode, if_neg (hcounts code hcall)]
        exact hpre.count hcall
      | consuming code =>
        obtain ⟨hreply, hopen⟩ := hconsumes code hcall
        simp only [verifySMSCode, if_neg hreply]
        split
        · exact hpre.consume hcall (.inr ⟨rfl, hopen ‹_›⟩)
        exact hpre.consume hcall (.inl rfl)
    rwa [hres] at hkept
  | world event =>
    obtain ⟨data, hworld, rfl⟩ := Service.world_some hstep
    cases event with
    | send phone scene sent =>
      cases hworld
      exact hpre.send
    | wait seconds =>
      cases hworld
      exact ⟨hpre.ids, hpre.known, ⟨hpre.limited.accepted, hpre.limited.evaluated⟩,
        hpre.consumed, hpre.acceptedKnown, hpre.counted⟩

/-- In every run in which verifications keep out of each other's way, no code is accepted
twice or compared with more than five attempts. -/
theorem sms_codes_limited (hs : (codeService config).machine.ReachableBy (Guarded config) s) :
    Limited s.data :=
  (codes_accounted hs).limited

/-- No code for development, and a hash under which a code can be told from others. -/
def plainConfig : CodeConfig := ⟨"", fun code => "hash " ++ code⟩

def noCodes : State CodeData VerifyCall := ⟨⟨KeyedTable.empty, 0, [], []⟩, fun _ => none⟩

theorem noCodes_initial (config : CodeConfig) : (codeService config).machine.initial noCodes :=
  ⟨⟨rfl, rfl, rfl⟩, fun _ => rfl⟩

theorem guarded_of {c : VerifyCall} {r : Reply} (hcall : s.calls id = some c)
    (hverify : ∀ phone scene sent, c = .verify phone scene sent → ∀ other code, ¬ Checking s other code)
    (hcounting : ∀ code, c ≠ .counting code)
    (hconsuming : ∀ code, c = .consuming code → r ≠ .failed ∧
      ∃ row ∈ s.data.codes.rows, row.id = code ∧ row.consumed = false) :
    Guarded config s (.advance id r) := by
  refine ⟨?_, ?_, ?_⟩
  · intro phone scene sent row hcur _ _ _ _ hattempts others _ hchecking
    have hidle := hverify phone scene sent (some.inj (hcall.symm.trans hcur))
    cases others with
    | nil => exact hattempts
    | cons other rest => exact absurd (hchecking other mem_cons_self) (hidle other row.id)
  · intro code hcur
    exact absurd (some.inj (hcall.symm.trans hcur)) (hcounting code)
  intro code hcur
  obtain ⟨hreply, hopen⟩ := hconsuming code (some.inj (hcall.symm.trans hcur))
  exact ⟨hreply, fun _ => hopen⟩

/-- A code is sent and verified. -/
theorem sms_codes_limited_once :
    ∃ s : State CodeData VerifyCall, s.data.accepted = [some 0] ∧ Limited s.data := by
  have hsend : (codeService plainConfig).machine.Path (Guarded plainConfig) noCodes
      ⟨sendCode plainConfig noCodes.data "p" "login" "123456", noCodes.calls⟩ :=
    Machine.Path.single (a := .world (.send "p" "login" "123456")) trivial rfl
  have hstart : (codeService plainConfig).machine.Path (Guarded plainConfig) noCodes
      ⟨sendCode plainConfig noCodes.data "p" "login" "123456",
        setCall noCodes.calls 0 (some (.verify "p" "login" "123456"))⟩ :=
    hsend.trans (Machine.Path.single (a := .start 0 (.verify "p" "login" "123456")) trivial rfl)
  have hread := hstart.tail (a := .advance 0 .answered)
    (guarded_of (c := .verify "p" "login" "123456") rfl (by
      rintro _ _ _ - (_ | other) code ⟨call, hcall, hcode⟩
      · cases hcall
        cases hcode
      cases hcall) (by simp) (by simp)) rfl
  have hcompare := hread.tail (a := .advance 0 .answered)
    (guarded_of (c := .comparing 0 "hash 123456") rfl (by simp) (by simp) (by simp)) rfl
  have hconsume := hcompare.tail (a := .advance 0 .answered)
    (guarded_of (c := .consuming 0) (r := .answered) rfl (by simp) (by simp) (by
      intro code hcode
      cases hcode
      exact ⟨by simp, _, mem_cons_self, rfl, rfl⟩)) rfl
  exact ⟨_, rfl, sms_codes_limited ⟨noCodes, noCodes_initial plainConfig, hconsume⟩⟩

/-- Two verifications of the right code compare it before either consumes it. -/
def twoVerifications : List (Action VerifyCall Reply CodeEvent) :=
  [.world (.send "p" "login" "123456"), .start 0 (.verify "p" "login" "123456"),
    .start 1 (.verify "p" "login" "123456"), .advance 0 .answered, .advance 1 .answered,
    .advance 0 .answered, .advance 1 .answered, .advance 0 .answered, .advance 1 .answered]

/-- Both are accepted. -/
theorem two_verifications_accept_twice :
    ∃ s, (codeService plainConfig).machine.Reachable s ∧ s.data.accepted = [some 0, some 0] ∧
      ¬ Limited s.data := by
  have hrun : ((codeService plainConfig).machine.execute noCodes twoVerifications).map
      (fun s => s.data.accepted) = some [some 0, some 0] := by decide
  obtain ⟨s, hs, hacc⟩ := Option.map_eq_some_iff.mp hrun
  refine ⟨s, Machine.reachable_of_execute (noCodes_initial plainConfig) hs, hacc, ?_⟩
  intro hlimited
  have honce := hlimited.accepted 0
  rw [hacc] at honce
  exact absurd honce (by decide)

end ImApp.Auth
