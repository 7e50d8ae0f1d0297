import ImApp.MediaGc.Worker

/-!
What one step of media garbage collection can do. Every safety argument is by
cases on these effects.
-/

namespace ImApp.MediaGc

open StepSystem VersionedRead List Option Record

variable {s t : GcState} {a : Action}

/-- A writer's update of a record that is not sealed. -/
structure Registered (now : Time) (before after : Record) : Prop where
  unsealed : before.state ≠ .deleting
  opened : after.state = .opened
  version : after.version = before.version + 1
  candidate : after.candidateAt = none
  hold : after.holdUntil = before.holdUntil ∨ after.holdUntil = some (now + uploadGrace)
  started : after.deleteStarted = before.deleteStarted
  permanent : before.state = .opened → before.permanent = true → after.permanent = true

variable {before after : Record}

theorem Record.registered_of_beginWrite {now : Time} {ready : Bool}
    (h : before.beginWrite now ready = some after) :
    Registered now before after ∧ after.holdUntil = some (now + uploadGrace) := by
  unfold Record.beginWrite at h
  split at h
  · cases h
  rename_i hunsealed
  cases h
  refine ⟨⟨hunsealed, rfl, rfl, rfl, .inr rfl, rfl, ?_⟩, rfl⟩
  intro hopened hperm
  simp [hopened, hperm]

theorem Record.registered_of_touch {now size : Nat} {permanent : Bool}
    (h : before.touch now size permanent = some after) : Registered now before after := by
  unfold Record.touch at h
  split at h
  · rename_i hopened
    cases h
    refine ⟨by simp [hopened], hopened, rfl, rfl, .inr rfl, rfl, ?_⟩
    intro _ hperm
    simp [hperm]
  cases h

theorem Record.registered_of_protectPermanently (now : Time)
    (h : before.protectPermanently = some after) :
    Registered now before after ∧ after.permanent = true := by
  unfold Record.protectPermanently at h
  split at h
  · rename_i hopened
    cases h
    exact ⟨⟨by simp [hopened], hopened, rfl, rfl, .inl rfl, rfl, fun _ _ => rfl⟩, rfl⟩
  cases h

theorem Record.registered_of_protect (now : Time) {claim : Option Claim} (h : before.protect claim = some after) :
    Registered now before after ∧ (permanentClaim claim = true → after.permanent = true) := by
  unfold Record.protect at h
  cases claim with
  | none =>
    obtain ⟨hreg, hperm⟩ := registered_of_protectPermanently now h
    exact ⟨hreg, fun _ => hperm⟩
  | some claim =>
    simp only at h
    split at h
    · rename_i hcompl
      unfold Record.protectUntil at h
      split at h
      · rename_i hfilter
        cases h
        refine ⟨⟨by simp [hfilter.1], hfilter.1, rfl, rfl, .inl rfl, rfl, fun _ hp => hp⟩, ?_⟩
        intro hclaim
        simp [permanentClaim, hcompl] at hclaim
      cases h
    obtain ⟨hreg, hperm⟩ := registered_of_protectPermanently now h
    exact ⟨hreg, fun _ => hperm⟩

variable {version worker : Nat}

theorem Record.sealable_iff {record : Record} : record.sealable version = true ↔
      record.state = .opened ∧ record.version = version ∧ record.permanent = false := by
  simp [Record.sealable, and_assoc]

theorem Record.markCandidate_cases {now : Nat} (h : before.markCandidate version now = some after) :
    before.sealable version = true ∧ after = { before with candidateAt := some now } := by
  unfold Record.markCandidate at h
  split at h
  · exact ⟨by assumption, (some.inj h).symm⟩
  cases h

theorem Record.sealForDelete_cases (h : before.sealForDelete version = some after) :
    before.sealable version = true ∧ after = { before with state := .deleting } := by
  unfold Record.sealForDelete at h
  split at h
  · exact ⟨by assumption, (some.inj h).symm⟩
  cases h

theorem Record.startDelete_cases (h : before.startDelete version = some after) :
    (before.state = .deleting ∧ before.version = version ∧ before.deleteStarted = false) ∧
      after = { before with deleteStarted := true } := by
  unfold Record.startDelete at h
  split at h
  · exact ⟨by assumption, (some.inj h).symm⟩
  cases h

theorem Record.markDeleted_cases {size : Nat} (h : before.markDeleted version size = some after) :
    (before.state = .deleting ∧ before.version = version) ∧
      after = { before with state := .deleted, deletedBytes := size, deleteStarted := false } := by
  unfold Record.markDeleted at h
  split at h
  · exact ⟨by assumption, (some.inj h).symm⟩
  cases h

/-- The pass that a worker is in. -/
def Phase.pass : Phase → Option Pass
  | .idle => none
  | .scanning pass | .judges pass _ _ | .deletes pass _ _ => some pass

/-- A worker's step that changes nothing but its own phase. -/
inductive Moves (s : GcState) (worker : Nat) : Phase → Phase → Prop
  | stop (phase : Phase) : Moves s worker phase .idle
  | run (dryRun : Bool) :
      Moves s worker .idle (.scanning ⟨s.now, dryRun, ⟨0, 0, 0, 0, 0⟩⟩)
  | find (pass : Pass) (record : Record) (hrec : s.record = some record)
      (hdue : record.due pass.now = true) :
      Moves s worker (.scanning pass) (.judges pass.scan ⟨record, s.activity⟩ .found)
  | skip (pass : Pass) (reading : Reading) :
      Moves s worker (.judges pass reading .found) (.judges pass reading .attempted)
  | judge (pass : Pass) (reading : Reading) (evidence : Claim → ClaimEvidence) :
      Moves s worker (.judges pass reading .attempted) (judged pass reading evidence)
  | leave (phase : Phase) (pass next : Pass) (hpass : phase.pass = some pass)
      (hnow : next.now = pass.now) : Moves s worker phase (.scanning next)
  | proceed (pass : Pass) (reading : Reading) (stage next : DeleteStage)
      (hans : ∀ size, stage = .issued size → ∀ request ∈ s.inFlight, request.worker ≠ worker) :
      Moves s worker (.deletes pass reading stage) (.deletes pass reading next)

inductive Effect (s : GcState) : Action → GcState → Prop
  | keep (a : Action) : Effect s a s
  | tick (duration : Time) : Effect s (.tick duration) { s with now := s.now + duration }
  | insert (ready : Bool) (hrec : s.record = none) :
      Effect s (.insert ready) (s.setRecord (freshRecord ready))
  | register {a : Action} (before after : Record) (granted : List Grant)
      (hrec : s.record = some before) (hreg : Registered s.now before after)
      (hgranted : ∀ grant ∈ granted,
        grant.version = after.version ∧ after.holdUntil = some grant.deadline) :
      Effect s a { s with
          record := some after
          activity := s.activity.next s.now
          grants := granted ++ s.grants }
  | upload (grant : Grant) (size : Nat) (hgrant : grant ∈ s.grants)
      (hdeadline : s.now ≤ grant.deadline) :
      Effect s (.upload grant size)
        { s with object := some ⟨grant.version, size⟩, activity := s.activity.next s.now }
  | move {a : Action} (worker : Nat) (phase : Phase)
      (hmoves : Moves s worker (s.workers worker) phase) : Effect s a (s.setWorker worker phase)
  | attempt (worker : Nat) (pass : Pass) (reading : Reading) (record : Record)
      (hphase : s.workers worker = .judges pass reading .found)
      (hrec : s.record = some record) :
      Effect s (.attempt worker) ((s.setWorker worker (.judges pass reading .attempted)).setRecord
          { record with attemptAt := some s.now })
  | mark (worker : Nat) (pass : Pass) (reading : Reading) (record : Record)
      (hphase : s.workers worker = .judges pass reading .marking)
      (hrec : s.record = some record)
      (hsealable : record.sealable reading.record.version = true) :
      Effect s (.markCandidate worker) ((s.setWorker worker (.scanning pass)).setRecord
          { record with candidateAt := some s.now })
  | sealing (worker : Nat) (pass : Pass) (reading : Reading) (record : Record)
      (hphase : s.workers worker = .judges pass reading .sealing)
      (hrec : s.record = some record)
      (hsealable : record.sealable reading.record.version = true) :
      Effect s (.sealForDelete worker)
        ((s.setWorker worker (.judges pass reading .claiming)).setRecord
          { record with state := .deleting })
  | start (worker : Nat) (pass : Pass) (reading : Reading) (record : Record)
      (hphase : s.workers worker = .judges pass reading .claiming)
      (hrec : s.record = some record) (hstate : record.state = .deleting)
      (hver : record.version = reading.record.version)
      (hstarted : record.deleteStarted = false) :
      Effect s (.startDelete worker)
        ((s.setWorker worker (.deletes pass reading .started)).setRecord
          { record with deleteStarted := true })
  | issue (worker : Nat) (pass : Pass) (reading : Reading) (size : Nat)
      (hphase : s.workers worker = .deletes pass reading (.statted size)) :
      Effect s (.issue worker) { s.setWorker worker (.deletes pass reading (.issued size)) with
          inFlight := ⟨worker, reading.record.version⟩ :: s.inFlight
          issued := ⟨worker, reading.record.version⟩ :: s.issued }
  | land (request : DeleteRequest) (hreq : request ∈ s.inFlight) :
      Effect s (.land request) { s with object := none, inFlight := s.inFlight.erase request }
  | finish (worker : Nat) (pass : Pass) (reading : Reading) (size : Nat) (record : Record)
      (hphase : s.workers worker = .deletes pass reading (.removed size))
      (hrec : s.record = some record) (hstate : record.state = .deleting)
      (hver : record.version = reading.record.version) :
      Effect s (.markDeleted worker) ((s.setWorker worker (.scanning (pass.deleted size))).setRecord
          { record with state := .deleted, deletedBytes := size, deleteStarted := false })

theorem register_cases {update : Record → Option Record} (h : register s update = some t) :
    ∃ before after, s.record = some before ∧ update before = some after ∧
      t = { s with record := some after, activity := s.activity.next s.now } := by
  obtain ⟨after, hafter, rfl⟩ := map_eq_some_iff.mp h
  obtain ⟨before, hpre, hupdate⟩ := bind_eq_some_iff.mp hafter
  exact ⟨before, after, hpre, hupdate, rfl⟩

theorem effect_of_register {update : Record → Option Record}
    (hupdate : ∀ before after, update before = some after → Registered s.now before after)
    (h : register s update = some t) : Effect s a t := by
  obtain ⟨before, after, hrec, hafter, rfl⟩ := register_cases h
  exact .register before after [] hrec (hupdate before after hafter)
    (fun _ hmem => absurd hmem not_mem_nil)

theorem effect_of_beginWrite {ready : Bool} (h : beginWrite s ready = some t) : Effect s a t := by
  obtain ⟨middle, hmiddle, rfl⟩ := map_eq_some_iff.mp h
  obtain ⟨before, after, hrec, hafter, rfl⟩ := register_cases hmiddle
  obtain ⟨hreg, hhold⟩ := registered_of_beginWrite hafter
  apply Effect.register before after [⟨after.version, s.now + uploadGrace⟩] hrec hreg
  intro grant hgrant
  obtain rfl := mem_singleton.mp hgrant
  exact ⟨rfl, hhold⟩

theorem effect_of_pass {dryRun : Bool} (h : run s worker dryRun = some t) : Effect s a t := by
  unfold run at h
  split at h
  · rename_i hidle
    cases h
    exact .move worker _ (hidle ▸ .run dryRun)
  cases h

theorem effect_of_find (h : find s worker = some t) : Effect s a t := by
  unfold find at h
  split at h
  · rename_i pass record hphase hrec
    split at h
    · rename_i hdue
      cases h
      exact .move worker _ (hphase ▸ .find pass record hrec hdue)
    cases h
  cases h

theorem effect_of_attempt (h : attempt s worker = some t) : Effect s (.attempt worker) t := by
  unfold attempt at h
  split at h
  · rename_i pass reading hphase
    simp only at h
    split at h
    · cases h
      exact .move worker _ (hphase ▸ .skip pass reading)
    split at h
    · cases h
      exact .move worker _ (hphase ▸ .skip pass reading)
    rename_i record hrec
    cases h
    exact .attempt worker pass reading record hphase hrec
  cases h

theorem effect_of_judge {evidence : Claim → ClaimEvidence}
    (h : judge s worker evidence = some t) : Effect s a t := by
  unfold judge at h
  split at h
  · rename_i pass reading hphase
    cases h
    exact .move worker _ (hphase ▸ .judge pass reading evidence)
  cases h

theorem effect_of_markCandidate (h : markCandidate s worker = some t) :
    Effect s (.markCandidate worker) t := by
  unfold markCandidate at h
  split at h
  · rename_i pass reading hphase
    simp only at h
    split at h
    · rename_i record hupdate
      cases h
      obtain ⟨before, hpre, hmarked⟩ := bind_eq_some_iff.mp hupdate
      obtain ⟨hsealable, rfl⟩ := markCandidate_cases hmarked
      exact .mark worker pass reading before hphase hpre hsealable
    cases h
    exact .move worker _ (hphase ▸ .leave _ pass pass rfl rfl)
  cases h

theorem effect_of_sealForDelete (h : sealForDelete s worker = some t) :
    Effect s (.sealForDelete worker) t := by
  unfold sealForDelete at h
  split at h
  · rename_i pass reading hphase
    split at h
    · rename_i record hupdate
      cases h
      obtain ⟨before, hpre, hsealed⟩ := bind_eq_some_iff.mp hupdate
      obtain ⟨hsealable, rfl⟩ := sealForDelete_cases hsealed
      exact .sealing worker pass reading before hphase hpre hsealable
    cases h
    exact .move worker _ (hphase ▸ .leave _ pass pass.defer rfl rfl)
  cases h

theorem effect_of_startDelete (h : startDelete s worker = some t) :
    Effect s (.startDelete worker) t := by
  unfold startDelete at h
  split at h
  · rename_i pass reading hphase
    split at h
    · rename_i record hupdate
      cases h
      obtain ⟨before, hpre, hstarted⟩ := bind_eq_some_iff.mp hupdate
      obtain ⟨⟨hstate, hver, hfree⟩, rfl⟩ := startDelete_cases hstarted
      exact .start worker pass reading before hphase hpre hstate hver hfree
    cases h
    exact .move worker _ (hphase ▸ .leave _ pass pass.defer rfl rfl)
  cases h

theorem effect_of_check (h : check s worker = some t) : Effect s a t := by
  unfold check at h
  split at h
  · rename_i pass reading hphase
    split at h
    · cases h
      refine .move worker _ (hphase ▸ .proceed pass reading .started .checked ?_)
      intro size hissued
      cases hissued
    cases h
    exact .move worker _ (hphase ▸ .leave _ pass pass.defer rfl rfl)
  cases h

theorem effect_of_stat (h : stat s worker = some t) : Effect s a t := by
  unfold stat at h
  split at h
  · rename_i pass reading hphase
    have hproceed : ∀ next, Effect s a (s.setWorker worker (.deletes pass reading next)) := by
      intro next
      refine .move worker _ (hphase ▸ .proceed pass reading .checked next ?_)
      intro size hissued
      cases hissued
    split at h <;>
    · cases h
      exact hproceed _
  cases h

theorem effect_of_issue (h : issue s worker = some t) : Effect s (.issue worker) t := by
  unfold issue at h
  split at h
  · rename_i pass reading size hphase
    cases h
    exact .issue worker pass reading size hphase
  cases h

theorem effect_of_answer (h : answer s worker = some t) : Effect s a t := by
  unfold answer at h
  split at h
  · rename_i pass reading size hphase
    split at h
    · cases h
    rename_i hlanded
    cases h
    refine .move worker _ (hphase ▸ .proceed pass reading (.issued size) (.removed size) ?_)
    intro _ _ request hreq hworker
    apply hlanded
    exact List.any_eq_true.mpr ⟨request, hreq, by simp [hworker]⟩
  cases h

theorem effect_of_fail (h : fail s worker = some t) : Effect s a t := by
  unfold fail at h
  split at h
  · cases h
  · rename_i pass reading stage hphase hother
    cases h
    exact .move worker _ (.leave _ pass pass.defer (by rw [hother]; rfl) rfl)
  cases h

theorem effect_of_markDeleted (h : markDeleted s worker = some t) :
    Effect s (.markDeleted worker) t := by
  unfold markDeleted at h
  split at h
  · rename_i pass reading size hphase
    split at h
    · rename_i record hupdate
      cases h
      obtain ⟨before, hpre, hdeleted⟩ := bind_eq_some_iff.mp hupdate
      obtain ⟨⟨hstate, hver⟩, rfl⟩ := markDeleted_cases hdeleted
      exact .finish worker pass reading size before hphase hpre hstate hver
    cases h
    exact .move worker _ (.stop _)
  cases h

theorem effect_of_step (h : step s a = some t) : Effect s a t := by
  cases a with
  | tick duration =>
    cases h
    exact .tick duration
  | insert ready =>
    cases h
    unfold insert
    split
    · rename_i hrec
      exact .insert ready hrec
    exact .keep _
  | beginWrite ready => exact effect_of_beginWrite h
  | touch size permanent =>
    exact effect_of_register (fun _ _ hafter => registered_of_touch hafter) h
  | protect claim =>
    exact effect_of_register (fun _ _ hafter => (registered_of_protect s.now hafter).1) h
  | protectOverflow =>
    exact effect_of_register
      (fun _ _ hafter => (registered_of_protectPermanently s.now hafter).1) h
  | upload grant size =>
    simp only [step, upload] at h
    split at h
    · rename_i hgranted
      cases h
      exact .upload grant size hgranted.1 hgranted.2
    cases h
  | run worker dryRun => exact effect_of_pass h
  | find worker => exact effect_of_find h
  | attempt worker => exact effect_of_attempt h
  | judge worker evidence => exact effect_of_judge h
  | markCandidate worker => exact effect_of_markCandidate h
  | sealForDelete worker => exact effect_of_sealForDelete h
  | startDelete worker => exact effect_of_startDelete h
  | check worker => exact effect_of_check h
  | stat worker => exact effect_of_stat h
  | issue worker => exact effect_of_issue h
  | land request =>
    simp only [step, land] at h
    split at h
    · rename_i hreq
      cases h
      exact .land request hreq
    cases h
  | answer worker => exact effect_of_answer h
  | fail worker => exact effect_of_fail h
  | markDeleted worker => exact effect_of_markDeleted h
  | stop worker =>
    cases h
    exact .move worker _ (.stop _)

end ImApp.MediaGc
