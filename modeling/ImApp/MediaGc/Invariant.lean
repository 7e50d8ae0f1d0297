import ImApp.MediaGc.Effects

/-!
The invariant of media garbage collection. A hold outlasts every grant, so a
record whose hold has run out is not uploaded to any more. What a pass read stays
true while the version is unchanged, and the delete of a sealed version belongs
to one worker.
-/

namespace ImApp.MediaGc

open StepSystem VersionedRead List Function Bool Option

variable {s t : GcState} {a : Action}

def SealedAt (version : Nat) (s : GcState) : Prop :=
  ∃ record, s.record = some record ∧ record.state = .deleting ∧ record.version = version

/-- The record is sealed and its delete has been started. -/
def StartedAt (version : Nat) (s : GcState) : Prop :=
  ∃ record, s.record = some record ∧ record.state = .deleting ∧ record.version = version ∧
    record.deleteStarted = true

theorem StartedAt.sealed {version : Nat} (h : StartedAt version s) : SealedAt version s := by
  obtain ⟨record, hrec, hstate, hver, _⟩ := h
  exact ⟨record, hrec, hstate, hver⟩

theorem StartedAt.version_eq {version : Nat} {record : Record} (h : StartedAt version s)
    (hrec : s.record = some record) :
    record.state = .deleting ∧ record.version = version ∧ record.deleteStarted = true := by
  obtain ⟨current, hcur, hstarted⟩ := h
  cases hcur.symm.trans hrec
  exact hstarted

theorem GcState.setWorker_self (s : GcState) (worker : Nat) (phase : Phase) :
    (s.setWorker worker phase).workers worker = phase := update_self ..

theorem GcState.setWorker_of_ne (s : GcState) {worker other : Nat} (phase : Phase)
    (h : other ≠ worker) : (s.setWorker worker phase).workers other = s.workers other :=
  update_of_ne h ..

theorem GcState.setWorker_cases (s : GcState) (worker other : Nat) (phase : Phase) :
    (other = worker ∧ (s.setWorker worker phase).workers other = phase) ∨
      (other ≠ worker ∧ (s.setWorker worker phase).workers other = s.workers other) := by
  rcases eq_or_ne other worker with rfl | hne
  · exact Or.inl ⟨rfl, s.setWorker_self other phase⟩
  exact Or.inr ⟨hne, s.setWorker_of_ne phase hne⟩

structure RecordSafe (now : Time) (activity : Activity) (record : Record) : Prop where
  hold : ∀ hold, record.holdUntil = some hold → hold ≤ now + uploadGrace
  candidate : ∀ marked, record.candidateAt = some marked → activity.last ≤ marked ∧
    marked ≤ now ∧ ∃ hold, record.holdUntil = some hold ∧ hold < marked
  sealed : record.state = .deleting → record.permanent = false ∧
    ∃ hold, record.holdUntil = some hold ∧ hold < now
  started : record.deleteStarted = true → record.state = .deleting

/-- The record admits the grant. -/
def Record.Covers (record : Record) (grant : Grant) : Prop :=
  grant.version ≤ record.version ∧ ∃ hold, record.holdUntil = some hold ∧ grant.deadline ≤ hold

structure StoreSafe (s : GcState) : Prop where
  clock : s.activity.last ≤ s.now
  record : ∀ record, s.record = some record → RecordSafe s.now s.activity record
  granted : ∀ grant ∈ s.grants, ∃ record, s.record = some record ∧ record.Covers grant
  stored : ∀ object, s.object = some object →
    ∃ record, s.record = some record ∧ object.version ≤ record.version

theorem RecordSafe.tick {now duration : Time} {activity : Activity} {record : Record}
    (h : RecordSafe now activity record) : RecordSafe (now + duration) activity record where
  hold hold hhold :=
    (h.hold hold hhold).trans (Nat.add_le_add_right (Nat.le_add_right now duration) _)
  candidate marked hmarked := by
    obtain ⟨hlast, hnow, hhold⟩ := h.candidate marked hmarked
    exact ⟨hlast, hnow.trans (Nat.le_add_right _ _), hhold⟩
  sealed hstate := by
    obtain ⟨hperm, hold, hhold, hlt⟩ := h.sealed hstate
    exact ⟨hperm, hold, hhold, hlt.trans_le (Nat.le_add_right _ _)⟩
  started := h.started

theorem Registered.started_false {now : Time} {before after : Record} {activity : Activity}
    (h : Registered now before after) (hsafe : RecordSafe now activity before) :
    after.deleteStarted = false := by
  rw [h.started]
  apply eq_false_of_not_eq_true
  intro hstarted
  exact h.unsealed (hsafe.started hstarted)

theorem RecordSafe.register {now : Time} {activity next : Activity} {before after : Record}
    (h : RecordSafe now activity before) (hreg : Registered now before after) :
    RecordSafe now next after where
  hold hold hhold := by
    rcases hreg.hold with hkept | hnew
    · exact h.hold hold (hkept.symm.trans hhold)
    exact (some.inj (hnew.symm.trans hhold)).ge
  candidate marked hmarked := by
    rw [hreg.candidate] at hmarked
    cases hmarked
  sealed hstate := by
    rw [hreg.opened] at hstate
    cases hstate
  started hstarted := by
    rw [hreg.started_false h] at hstarted
    cases hstarted

theorem Record.Covers.register {now : Time} {activity : Activity} {before after : Record}
    {grant : Grant} (h : before.Covers grant) (hsafe : RecordSafe now activity before)
    (hreg : Registered now before after) : after.Covers grant := by
  obtain ⟨hver, hold, hhold, hdeadline⟩ := h
  refine ⟨by have := hreg.version; omega, ?_⟩
  rcases hreg.hold with hkept | hnew
  · exact ⟨hold, hkept.trans hhold, hdeadline⟩
  exact ⟨_, hnew, hdeadline.trans (hsafe.hold hold hhold)⟩

theorem Record.Covers.hold_le {record : Record} {grant : Grant} {now hold : Time}
    (h : record.Covers grant) (hdeadline : now ≤ grant.deadline)
    (hhold : record.holdUntil = some hold) : now ≤ hold := by
  obtain ⟨_, later, hlater, hle⟩ := h
  cases hlater.symm.trans hhold
  exact hdeadline.trans hle

theorem StoreSafe.covers (h : StoreSafe s) {grant : Grant} {record : Record}
    (hgrant : grant ∈ s.grants) (hrec : s.record = some record) : record.Covers grant := by
  obtain ⟨current, hcur, hcovers⟩ := h.granted grant hgrant
  cases hcur.symm.trans hrec
  exact hcovers

theorem StoreSafe.object_le (h : StoreSafe s) {object : Upload} {record : Record}
    (hobject : s.object = some object) (hrec : s.record = some record) :
    object.version ≤ record.version := by
  obtain ⟨current, hcur, hle⟩ := h.stored object hobject
  cases hcur.symm.trans hrec
  exact hle

/-- An update by the garbage collector keeps what grants and objects rely on. -/
theorem StoreSafe.update {before after : Record} {worker : Nat} {phase : Phase}
    (h : StoreSafe s) (hrec : s.record = some before)
    (hver : after.version = before.version) (hhold : after.holdUntil = before.holdUntil)
    (hsafe : RecordSafe s.now s.activity after) :
    StoreSafe ((s.setWorker worker phase).setRecord after) where
  clock := h.clock
  record record hset := some.inj hset ▸ hsafe
  granted grant hgrant := by
    refine ⟨after, rfl, ?_⟩
    have hcovers := h.covers hgrant hrec
    unfold Record.Covers at hcovers ⊢
    rw [hver, hhold]
    exact hcovers
  stored object hobject := ⟨after, rfl, hver ▸ h.object_le hobject hrec⟩

theorem storeSafe_initial (hs : Initial s) : StoreSafe s where
  clock := hs.activity
  record record hrec := by
    rw [hs.record] at hrec
    cases hrec
  granted grant hgrant := by
    rw [hs.grants] at hgrant
    cases hgrant
  stored object hobject := by
    rw [hs.object] at hobject
    cases hobject

def Reading.version (reading : Reading) : Nat := reading.record.version

def Reading.view (reading : Reading) : Option Time × List Claim × Activity :=
  (reading.record.holdUntil, reading.record.claims, reading.activity)

/-- The reading was taken from this key, after its hold had run out. -/
structure ReadingSafe (s : GcState) (pass : Pass) (reading : Reading) : Prop where
  clock : pass.now ≤ s.now
  held : ∃ hold, reading.record.holdUntil = some hold ∧ hold < pass.now
  quiet : ∀ marked, reading.record.candidateAt = some marked → reading.activity.last ≤ marked
  current : ∃ record, s.record = some record ∧
    Follows Reading.version Reading.view reading ⟨record, s.activity⟩

/-- What the pass found before it decided to seal. -/
def Sealable (pass : Pass) (reading : Reading) : Prop :=
  (∃ evidence, reclaimable reading.record evidence pass.now = true) ∧
    ∃ marked, reading.record.candidateAt = some marked ∧ marked + quarantine ≤ pass.now

def PhaseSafe (s : GcState) : Phase → Prop
  | .idle => True
  | .scanning pass => pass.now ≤ s.now
  | .judges pass reading stage =>
    ReadingSafe s pass reading ∧ (stage = .sealing → Sealable pass reading)
  | .deletes pass _ _ => pass.now ≤ s.now

theorem PhaseSafe.clock {phase : Phase} {pass : Pass} (h : PhaseSafe s phase)
    (hpass : phase.pass = some pass) : pass.now ≤ s.now := by
  cases phase with
  | idle => cases hpass
  | scanning current | deletes current reading stage =>
    cases hpass
    exact h
  | judges current reading stage =>
    cases hpass
    exact h.1.clock

theorem PhaseSafe.reading {pass : Pass} {reading : Reading} {stage : Stage}
    (h : PhaseSafe s (.judges pass reading stage)) :
    ReadingSafe s pass reading ∧ (stage = .sealing → Sealable pass reading) := h

theorem ReadingSafe.view_eq {pass : Pass} {reading : Reading} {record : Record}
    (h : ReadingSafe s pass reading) (hrec : s.record = some record)
    (hver : record.version = reading.record.version) :
    reading.view = Reading.view ⟨record, s.activity⟩ := by
  obtain ⟨current, hcur, hfollows⟩ := h.current
  cases hrec.symm.trans hcur
  exact hfollows.view_eq hver.symm

theorem ReadingSafe.hold_lt {pass : Pass} {reading : Reading} {record : Record}
    (h : ReadingSafe s pass reading) (hrec : s.record = some record)
    (hver : record.version = reading.record.version) :
    ∃ hold, record.holdUntil = some hold ∧ hold < s.now := by
  obtain ⟨hold, hhold, hlt⟩ := h.held
  have hview := h.view_eq hrec hver
  exact ⟨hold, (congrArg Prod.fst hview).symm.trans hhold, hlt.trans_le h.clock⟩

/-- What a reader may rely on carries over from `s` to `t`. -/
structure Continues (s t : GcState) : Prop where
  clock : s.now ≤ t.now
  current : ∀ record hold, s.record = some record → record.holdUntil = some hold → hold < s.now →
    ∃ next, t.record = some next ∧
      Follows Reading.version Reading.view ⟨record, s.activity⟩ ⟨next, t.activity⟩
  versions : ∀ record, s.record = some record →
    ∃ next, t.record = some next ∧ record.version ≤ next.version

theorem Continues.of_same (hnow : s.now ≤ t.now) (hrec : t.record = s.record)
    (hactivity : t.activity = s.activity) : Continues s t where
  clock := hnow
  current record _ hcur _ _ := ⟨record, hrec.trans hcur, hactivity ▸ .refl _⟩
  versions record hcur := ⟨record, hrec.trans hcur, le_rfl⟩

theorem Continues.of_update {before after : Record} (hnow : t.now = s.now)
    (hpre : s.record = some before) (hafter : t.record = some after)
    (hactivity : t.activity = s.activity) (hver : after.version = before.version)
    (hhold : after.holdUntil = before.holdUntil) (hclaims : after.claims = before.claims) :
    Continues s t where
  clock := hnow.ge
  current record _ hcur _ _ := by
    cases hpre.symm.trans hcur
    refine ⟨after, hafter, Or.inr ⟨hver.symm, ?_⟩⟩
    simp only [Reading.view, hhold, hclaims, hactivity]
  versions record hcur := by
    cases hpre.symm.trans hcur
    exact ⟨after, hafter, hver.ge⟩

theorem ReadingSafe.continue {pass : Pass} {reading : Reading} (h : ReadingSafe s pass reading)
    (hcontinues : Continues s t) : ReadingSafe t pass reading := { h with
    clock := h.clock.trans hcontinues.clock
    current := by
      obtain ⟨record, hrec, hfollows⟩ := h.current
      obtain ⟨hold, hhold, hlt⟩ := h.held
      rcases hfollows with hraised | ⟨hver, hview⟩
      · obtain ⟨next, hnext, hle⟩ := hcontinues.versions record hrec
        exact ⟨next, hnext, .raise (hraised.trans_le hle)⟩
      have hcur : record.holdUntil = some hold := (congrArg Prod.fst hview).symm.trans hhold
      obtain ⟨next, hnext, hafter⟩ := hcontinues.current record hold hrec hcur
        (hlt.trans_le h.clock)
      exact ⟨next, hnext, Follows.trans (Or.inr ⟨hver, hview⟩) hafter⟩ }

theorem PhaseSafe.continue {phase : Phase} (h : PhaseSafe s phase)
    (hcontinues : Continues s t) : PhaseSafe t phase := by
  cases phase with
  | idle => trivial
  | scanning pass | deletes pass reading stage => exact h.trans hcontinues.clock
  | judges pass reading stage => exact ⟨h.1.continue hcontinues, h.2⟩

/-- Only a registration or an upload disturbs a reader, and neither happens at the
version of a record whose hold has run out. -/
theorem continues_of_effect (hsafe : StoreSafe s) (h : Effect s a t) : Continues s t := by
  cases h with
  | keep | move worker phase hmoves | issue worker pass reading size hphase
  | land request hreq => exact .of_same le_rfl rfl rfl
  | tick duration => exact .of_same (Nat.le_add_right _ _) rfl rfl
  | insert ready hrec =>
    refine ⟨le_rfl, ?_, ?_⟩
    · intro record _ hcur
      cases hrec.symm.trans hcur
    intro record hcur
    cases hrec.symm.trans hcur
  | register before after granted hrec hreg hgranted =>
    refine ⟨le_rfl, ?_, ?_⟩
    · intro record _ hcur _ _
      cases hrec.symm.trans hcur
      refine ⟨after, rfl, .raise ?_⟩
      change before.version < after.version
      rw [hreg.version]
      exact Nat.lt_succ_self _
    intro record hcur
    cases hrec.symm.trans hcur
    refine ⟨after, rfl, ?_⟩
    rw [hreg.version]
    exact Nat.le_succ _
  | upload grant size hgrant hdeadline =>
    refine ⟨le_rfl, ?_, fun record hcur => ⟨record, hcur, le_rfl⟩⟩
    intro record hold hcur hhold hlt
    have hle := (hsafe.covers hgrant hcur).hold_le hdeadline hhold
    exact absurd hlt (Nat.not_lt.mpr hle)
  | attempt worker pass reading record hphase hrec
  | mark worker pass reading record hphase hrec hsealable
  | sealing worker pass reading record hphase hrec hsealable
  | start worker pass reading record hphase hrec hstate hver hstarted
  | finish worker pass reading size record hphase hrec hstate hver =>
    exact .of_update rfl hrec rfl rfl rfl rfl rfl

/-- The worker has started the delete of what it read. -/
def Owns (s : GcState) (worker : Nat) (reading : Reading) : Prop :=
  ∃ pass stage, s.workers worker = .deletes pass reading stage

/-- A started delete has at most one owner, and only the owner's request can be on
its way while there is one. -/
structure OwnerSafe (s : GcState) : Prop where
  owned : ∀ worker reading, Owns s worker reading → StartedAt reading.version s
  unique : ∀ worker other reading reading', Owns s worker reading → Owns s other reading' →
    worker = other
  requested : ∀ request ∈ s.inFlight, StartedAt request.version s
  sender : ∀ worker pass reading stage, s.workers worker = .deletes pass reading stage →
    ∀ request ∈ s.inFlight, request.worker = worker ∧ ∃ size, stage = .issued size

structure GcInvariant (s : GcState) : Prop where
  store : StoreSafe s
  phases : ∀ worker, PhaseSafe s (s.workers worker)
  owner : OwnerSafe s

theorem StoreSafe.step (h : StoreSafe s) (hphases : ∀ worker, PhaseSafe s (s.workers worker))
    (heffect : Effect s a t) : StoreSafe t := by
  cases heffect with
  | keep => exact h
  | tick duration =>
    exact ⟨h.clock.trans (Nat.le_add_right _ _), fun record hrec => (h.record record hrec).tick,
      h.granted, h.stored⟩
  | insert ready hrec =>
    refine ⟨h.clock, ?_, ?_, ?_⟩
    · intro record hins
      cases hins
      refine ⟨?_, ?_, ?_, ?_⟩
      · intro hold hhold
        cases hhold
      · intro marked hmarked
        cases hmarked
      · intro hstate
        cases hstate
      intro hstarted
      cases hstarted
    · intro grant hgrant
      obtain ⟨record, hcur, _⟩ := h.granted grant hgrant
      cases hrec.symm.trans hcur
    intro object hobject
    obtain ⟨record, hcur, _⟩ := h.stored object hobject
    cases hrec.symm.trans hcur
  | register before after granted hrec hreg hgranted =>
    have hpre := h.record before hrec
    refine ⟨le_rfl, ?_, ?_, ?_⟩
    · intro record hset
      cases hset
      exact hpre.register hreg
    · intro grant hgrant
      refine ⟨after, rfl, ?_⟩
      rcases mem_append.mp hgrant with hnew | hold
      · obtain ⟨hver, hhold⟩ := hgranted grant hnew
        exact ⟨hver.le, grant.deadline, hhold, le_rfl⟩
      exact (h.covers hold hrec).register hpre hreg
    intro object hobject
    refine ⟨after, rfl, ?_⟩
    rw [hreg.version]
    exact (h.object_le hobject hrec).trans (Nat.le_succ _)
  | upload grant size hgrant hdeadline =>
    refine ⟨le_rfl, ?_, h.granted, ?_⟩
    · intro record hrec
      have hpre := h.record record hrec
      have hcovers := h.covers hgrant hrec
      refine ⟨hpre.hold, ?_, hpre.sealed, hpre.started⟩
      intro marked hmarked
      obtain ⟨_, hnow, hold, hhold, hlt⟩ := hpre.candidate marked hmarked
      have hle := hcovers.hold_le hdeadline hhold
      exact absurd (hlt.trans_le hnow) (Nat.not_lt.mpr hle)
    intro object hobject
    cases hobject
    obtain ⟨record, hrec, hcovers⟩ := h.granted grant hgrant
    exact ⟨record, hrec, hcovers.1⟩
  | move worker phase hmoves | issue worker pass reading size hphase =>
    exact ⟨h.clock, h.record, h.granted, h.stored⟩
  | attempt worker pass reading record hphase hrec =>
    have hpre := h.record record hrec
    exact h.update hrec rfl rfl ⟨hpre.hold, hpre.candidate, hpre.sealed, hpre.started⟩
  | mark worker pass reading record hphase hrec hsealable =>
    have hpre := h.record record hrec
    have hreading := (PhaseSafe.reading (hphase ▸ hphases worker)).1
    obtain ⟨hold, hhold, hlt⟩ :=
      hreading.hold_lt hrec (Record.sealable_iff.mp hsealable).2.1
    refine h.update hrec rfl rfl ⟨hpre.hold, ?_, hpre.sealed, hpre.started⟩
    intro marked hmarked
    cases hmarked
    exact ⟨h.clock, le_rfl, hold, hhold, hlt⟩
  | sealing worker pass reading record hphase hrec hsealable =>
    have hpre := h.record record hrec
    have hreading := (PhaseSafe.reading (hphase ▸ hphases worker)).1
    obtain ⟨_, hver, hperm⟩ := Record.sealable_iff.mp hsealable
    have hheld := hreading.hold_lt hrec hver
    exact h.update hrec rfl rfl ⟨hpre.hold, hpre.candidate, fun _ => ⟨hperm, hheld⟩, fun _ => rfl⟩
  | start worker pass reading record hphase hrec hstate hver hstarted =>
    have hpre := h.record record hrec
    exact h.update hrec rfl rfl ⟨hpre.hold, hpre.candidate, hpre.sealed, fun _ => hstate⟩
  | land request hreq =>
    exact ⟨h.clock, h.record, h.granted, fun object hobject => by cases hobject⟩
  | finish worker pass reading size record hphase hrec hstate hver =>
    have hpre := h.record record hrec
    refine h.update hrec rfl rfl ⟨hpre.hold, hpre.candidate, ?_, ?_⟩
    · intro hdeleting
      cases hdeleting
    intro hstarted
    cases hstarted

/-- A judgement leaves the record or goes on with it, and goes on to the seal only
with the evidence. -/
theorem judged_cases (pass : Pass) (reading : Reading) (evidence : Claim → ClaimEvidence) :
    (∃ next, judged pass reading evidence = .scanning next ∧ next.now = pass.now) ∨
      ∃ next stage, judged pass reading evidence = .judges next reading stage ∧
        next.now = pass.now ∧ (stage = .sealing → Sealable next reading) := by
  unfold judged
  split
  · split
    · exact Or.inl ⟨pass.defer, rfl, rfl⟩
    rename_i hreclaimable
    rw [not_eq_true', not_eq_false] at hreclaimable
    split
    · split
      · exact Or.inl ⟨pass.quarantined, rfl, rfl⟩
      exact Or.inr ⟨pass.quarantined, .marking, rfl, rfl, fun hstage => by cases hstage⟩
    rename_i marked hmarked
    split
    · exact Or.inl ⟨pass.defer, rfl, rfl⟩
    rename_i hquiet
    split
    · exact Or.inl ⟨pass.quarantined, rfl, rfl⟩
    exact Or.inr ⟨pass, .sealing, rfl, rfl,
      fun _ => ⟨⟨evidence, hreclaimable⟩, marked, hmarked, Nat.not_lt.mp hquiet⟩⟩
  split
  · exact Or.inl ⟨pass.quarantined, rfl, rfl⟩
  exact Or.inr ⟨pass, .claiming, rfl, rfl, fun hstage => by cases hstage⟩

theorem PhaseSafe.moves {worker : Nat} {before after : Phase} (h : PhaseSafe s before)
    (hstore : StoreSafe s) (hmoves : Moves s worker before after) : PhaseSafe s after := by
  cases hmoves with
  | stop => trivial
  | run dryRun => exact le_refl s.now
  | find pass record hrec hdue =>
    refine ⟨⟨h, ?_, ?_, record, hrec, .refl _⟩, fun hstage => by cases hstage⟩
    · simp only [Record.due, and_eq_true, Option.any_eq_true] at hdue
      obtain ⟨_, hold, hhold, hlt⟩ := hdue
      exact ⟨hold, hhold, of_decide_eq_true hlt⟩
    intro marked hmarked
    exact ((hstore.record record hrec).candidate marked hmarked).1
  | skip pass reading => exact ⟨h.1, fun hstage => by cases hstage⟩
  | judge pass reading evidence =>
    rcases judged_cases pass reading evidence with
      ⟨next, hnext, hnow⟩ | ⟨next, stage, hnext, hnow, hsealable⟩
    · rw [hnext]
      exact hnow.le.trans h.1.clock
    rw [hnext]
    refine ⟨⟨hnow.le.trans h.1.clock, ?_, h.1.quiet, h.1.current⟩, hsealable⟩
    rw [hnow]
    exact h.1.held
  | leave _ pass next hpass hnow => exact hnow.le.trans (h.clock hpass)
  | proceed pass reading stage next hans => exact h

theorem phases_of_setWorker (worker : Nat) (phase : Phase)
    (h : ∀ other, PhaseSafe t (s.workers other)) (hphase : PhaseSafe t phase)
    (hworkers : t.workers = (s.setWorker worker phase).workers) (other : Nat) :
    PhaseSafe t (t.workers other) := by
  rw [hworkers]
  rcases s.setWorker_cases worker other phase with ⟨_, hself⟩ | ⟨_, hkept⟩
  · rw [hself]
    exact hphase
  rw [hkept]
  exact h other

theorem phases_step (hstore : StoreSafe s) (h : ∀ worker, PhaseSafe s (s.workers worker))
    (heffect : Effect s a t) (worker : Nat) : PhaseSafe t (t.workers worker) := by
  have hcontinues := continues_of_effect hstore heffect
  have hkept : ∀ other, PhaseSafe t (s.workers other) := by
    intro other
    exact (h other).continue hcontinues
  have hread : ∀ other phase, s.workers other = phase → PhaseSafe t phase := by
    intro other phase hphase
    exact hphase ▸ hkept other
  cases heffect with
  | keep | tick | insert | register | upload | land => exact hkept worker
  | move changed phase hmoves =>
    have hmoved := (h changed).moves hstore hmoves
    exact phases_of_setWorker changed phase hkept (hmoved.continue hcontinues) rfl worker
  | attempt changed pass reading record hphase hrec =>
    exact phases_of_setWorker changed (.judges pass reading .attempted) hkept
      ⟨(hread _ _ hphase).1, fun hstage => by cases hstage⟩ rfl worker
  | mark changed pass reading record hphase =>
    exact phases_of_setWorker changed (.scanning pass) hkept
      ((hread _ _ hphase).clock rfl) rfl worker
  | sealing changed pass reading record hphase =>
    exact phases_of_setWorker changed (.judges pass reading .claiming) hkept
      ⟨(hread _ _ hphase).1, fun hstage => by cases hstage⟩ rfl worker
  | start changed pass reading record hphase =>
    exact phases_of_setWorker changed (.deletes pass reading .started) hkept
      ((hread _ _ hphase).clock rfl) rfl worker
  | issue changed pass reading size hphase =>
    exact phases_of_setWorker changed (.deletes pass reading (.issued size)) hkept
      ((hread _ _ hphase).clock rfl) rfl worker
  | finish changed pass reading size record hphase =>
    have hclock := hread changed _ hphase
    exact phases_of_setWorker changed (.scanning (pass.deleted size)) hkept hclock rfl worker

theorem Moves.proceeds {worker : Nat} {before after : Phase} {pass : Pass} {reading : Reading}
    {stage : DeleteStage} (h : Moves s worker before after)
    (hafter : after = .deletes pass reading stage) :
    ∃ earlier, before = .deletes pass reading earlier ∧
      (∀ size, earlier = .issued size → ∀ request ∈ s.inFlight, request.worker ≠ worker) := by
  cases h with
  | stop | run | find | skip | leave => cases hafter
  | judge current read evidence =>
    rcases judged_cases current read evidence with ⟨next, hnext, _⟩ | ⟨next, later, hnext, _⟩ <;>
      cases hnext.symm.trans hafter
  | proceed current read earlier later hans =>
    cases hafter
    exact ⟨earlier, rfl, hans⟩

/-- The step in which the owner of a delete marks the record deleted. -/
structure Finishes (s : GcState) (a : Action) (t : GcState) (worker : Nat) : Prop where
  action : a = .markDeleted worker
  removed : ∃ pass reading size, s.workers worker = .deletes pass reading (.removed size)
  left : ∃ pass, t.workers = (s.setWorker worker (.scanning pass)).workers
  inFlight : t.inFlight = s.inFlight

theorem StartedAt.step {version : Nat} (h : StartedAt version s) (heffect : Effect s a t) :
    StartedAt version t ∨ ∃ worker, Finishes s a t worker := by
  have hsame : t.record = s.record → StartedAt version t := by
    intro hrec
    obtain ⟨record, hcur, hstarted⟩ := h
    exact ⟨record, hrec.trans hcur, hstarted⟩
  cases heffect with
  | keep => exact Or.inl h
  | tick | upload | move | issue | land => exact Or.inl (hsame rfl)
  | insert ready hrec =>
    obtain ⟨record, hcur, _⟩ := h
    cases hrec.symm.trans hcur
  | register before after granted hrec hreg =>
    exact absurd (h.version_eq hrec).1 hreg.unsealed
  | attempt worker pass reading record hphase hrec =>
    have hstarted := h.version_eq hrec
    exact Or.inl ⟨_, rfl, hstarted⟩
  | mark worker pass reading record hphase hrec hsealable
  | sealing worker pass reading record hphase hrec hsealable =>
    cases (h.version_eq hrec).1.symm.trans (Record.sealable_iff.mp hsealable).1
  | start worker pass reading record hphase hrec hstate hver hstarted =>
    cases hstarted.symm.trans (h.version_eq hrec).2.2
  | finish worker pass reading size record hphase hrec =>
    exact Or.inr ⟨worker, rfl, ⟨pass, reading, size, hphase⟩, ⟨_, rfl⟩, rfl⟩

/-- A worker becomes an owner only when it starts a delete that nobody has
started. -/
theorem owns_step {worker : Nat} {reading : Reading} (howns : Owns t worker reading)
    (heffect : Effect s a t) : Owns s worker reading ∨
      ((∀ version, ¬ StartedAt version s) ∧ StartedAt reading.version t ∧
        ∀ other, other ≠ worker → t.workers other = s.workers other) := by
  have hset : ∀ changed phase, t.workers = (s.setWorker changed phase).workers →
      (∀ pass stage, phase = .deletes pass reading stage → Owns s changed reading) →
        Owns s worker reading := by
    intro changed phase hworkers hphase
    obtain ⟨pass, stage, hdeletes⟩ := howns
    rw [hworkers] at hdeletes
    rcases s.setWorker_cases changed worker phase with ⟨rfl, hself⟩ | ⟨_, hkept⟩
    · exact hphase pass stage (hself.symm.trans hdeletes)
    exact ⟨pass, stage, hkept.symm.trans hdeletes⟩
  cases heffect with
  | keep | tick | insert | register | upload | land => exact Or.inl howns
  | move changed phase hmoves =>
    refine Or.inl (hset changed phase rfl ?_)
    intro pass stage hdeletes
    obtain ⟨earlier, hearlier, _⟩ := hmoves.proceeds hdeletes
    exact ⟨pass, earlier, hearlier⟩
  | attempt changed pass reading | mark changed pass reading | sealing changed pass reading
  | finish changed pass current => exact Or.inl (hset changed _ rfl (fun _ _ h => by cases h))
  | start changed pass current record hphase hrec hstate hver hstarted =>
    rcases eq_or_ne worker changed with rfl | hne
    · have hself := s.setWorker_self worker (.deletes pass current .started)
      obtain ⟨_, _, hdeletes⟩ := howns
      cases hself.symm.trans hdeletes
      refine Or.inr ⟨?_, ⟨_, rfl, hstate, hver, rfl⟩, ?_⟩
      · intro version hpre
        cases hstarted.symm.trans (hpre.version_eq hrec).2.2
      intro other hother
      exact s.setWorker_of_ne _ hother
    obtain ⟨later, stage, hdeletes⟩ := howns
    have hkept := s.setWorker_of_ne (.deletes pass current .started) hne
    exact Or.inl ⟨later, stage, hkept.symm.trans hdeletes⟩
  | issue changed pass current size hphase =>
    refine Or.inl (hset changed _ rfl ?_)
    intro _ _ hissued
    cases hissued
    exact ⟨pass, _, hphase⟩

section

variable (h : OwnerSafe s)
include h

theorem OwnerSafe.quiet {worker : Nat} {pass : Pass} {reading : Reading} {stage : DeleteStage} (hdeletes : s.workers worker = .deletes pass reading stage)
    (hans : ∀ size, stage = .issued size → ∀ request ∈ s.inFlight, request.worker ≠ worker) :
    s.inFlight = [] := by
  apply eq_nil_iff_forall_not_mem.mpr
  intro request hreq
  obtain ⟨hworker, size, hissued⟩ := h.sender worker pass reading stage hdeletes request hreq
  exact hans size hissued request hreq hworker

/-- With the mark a delete is over: it has no owner, and no request is on its way. -/
theorem OwnerSafe.finishes {worker : Nat} (hfinishes : Finishes s a t worker) :
    (∀ other reading, ¬ Owns t other reading) ∧ t.inFlight = [] := by
  obtain ⟨pass, reading, size, hremoved⟩ := hfinishes.removed
  obtain ⟨next, hleft⟩ := hfinishes.left
  constructor
  · rintro other read ⟨_, stage, hdeletes⟩
    rw [hleft] at hdeletes
    rcases s.setWorker_cases worker other (.scanning next) with ⟨_, hself⟩ | ⟨hne, hkept⟩
    · cases hself.symm.trans hdeletes
    apply hne
    exact h.unique other worker read reading ⟨_, stage, hkept.symm.trans hdeletes⟩
      ⟨pass, _, hremoved⟩
  rw [hfinishes.inFlight]
  exact h.quiet hremoved (fun _ hissued => by cases hissued)

theorem OwnerSafe.requested_after (heffect : Effect s a t)
    {request : DeleteRequest} (hreq : request ∈ t.inFlight) : StartedAt request.version s := by
  cases heffect with
  | issue worker pass reading size hphase =>
    rcases mem_cons.mp hreq with rfl | hpre
    · exact h.owned worker reading ⟨pass, _, hphase⟩
    exact h.requested request hpre
  | land => exact h.requested request (mem_of_mem_erase hreq)
  | _ => exact h.requested request hreq

theorem OwnerSafe.sender_step (heffect : Effect s a t) {worker : Nat}
    {pass : Pass} {reading : Reading} {stage : DeleteStage}
    (hdeletes : t.workers worker = .deletes pass reading stage) {request : DeleteRequest}
    (hreq : request ∈ t.inFlight) : request.worker = worker ∧ ∃ size, stage = .issued size := by
  have hkept : s.workers worker = .deletes pass reading stage → request ∈ s.inFlight →
      request.worker = worker ∧ ∃ size, stage = .issued size := by
    intro hpre hmem
    exact h.sender worker pass reading stage hpre request hmem
  -- A worker whose phase is set to something else than a delete is not `worker`.
  have hother : ∀ changed phase, t.workers = (s.setWorker changed phase).workers →
      (worker = changed → phase ≠ .deletes pass reading stage) → request ∈ s.inFlight →
        request.worker = worker ∧ ∃ size, stage = .issued size := by
    intro changed phase hworkers hphase hmem
    rw [hworkers] at hdeletes
    rcases s.setWorker_cases changed worker phase with ⟨hsame, hself⟩ | ⟨_, hpre⟩
    · exact absurd (hself.symm.trans hdeletes) (hphase hsame)
    exact hkept (hpre.symm.trans hdeletes) hmem
  cases heffect with
  | keep | tick | insert | register | upload => exact hkept hdeletes hreq
  | move changed phase hmoves =>
    apply hother changed phase rfl _ hreq
    intro _ hphase
    obtain ⟨earlier, hearlier, hans⟩ := hmoves.proceeds hphase
    have hmem : request ∈ s.inFlight := hreq
    rw [h.quiet hearlier hans] at hmem
    cases hmem
  | attempt changed | mark changed | sealing changed | finish changed =>
    exact hother changed _ rfl (fun _ hphase => by cases hphase) hreq
  | start changed current read record hphase hrec hstate hver hstarted =>
    have hpre := h.requested request hreq
    cases hstarted.symm.trans (hpre.version_eq hrec).2.2
  | issue changed current read size hphase =>
    have hempty : s.inFlight = [] := h.quiet hphase (fun _ hissued => by cases hissued)
    rcases s.setWorker_cases changed worker (.deletes current read (.issued size)) with
      ⟨rfl, hself⟩ | ⟨hne, hpre⟩
    · cases hself.symm.trans hdeletes
      rcases mem_cons.mp hreq with rfl | hmem
      · exact ⟨rfl, size, rfl⟩
      rw [hempty] at hmem
      cases hmem
    have howns : Owns s worker reading := ⟨pass, stage, hpre.symm.trans hdeletes⟩
    exact absurd (h.unique _ _ _ _ howns ⟨current, _, hphase⟩) hne
  | land => exact hkept hdeletes (mem_of_mem_erase hreq)

theorem OwnerSafe.step (heffect : Effect s a t) : OwnerSafe t where
  owned worker reading howns := by
    rcases owns_step howns heffect with hpre | ⟨_, hstarted, _⟩
    · rcases (h.owned worker reading hpre).step heffect with hkept | ⟨_, hfinishes⟩
      · exact hkept
      exact absurd howns ((h.finishes hfinishes).1 worker reading)
    exact hstarted
  unique worker other reading reading' howns howns' := by
    have hfresh : ∀ who read, Owns s who read → ¬ ∀ version, ¬ StartedAt version s := by
      intro who read hpre hnone
      exact hnone _ (h.owned who read hpre)
    rcases owns_step howns heffect with hpre | ⟨hnone, _, hothers⟩
    · rcases owns_step howns' heffect with hbefore' | ⟨hnone, _⟩
      · exact h.unique worker other reading reading' hpre hbefore'
      exact absurd hnone (hfresh worker reading hpre)
    by_contra hne
    obtain ⟨pass, stage, hdeletes⟩ := howns'
    rw [hothers other (Ne.symm hne)] at hdeletes
    exact hfresh other reading' ⟨pass, stage, hdeletes⟩ hnone
  requested request hreq := by
    rcases (h.requested_after heffect hreq).step heffect with hkept | ⟨_, hfinishes⟩
    · exact hkept
    rw [(h.finishes hfinishes).2] at hreq
    cases hreq
  sender worker pass reading stage hdeletes request hreq :=
    h.sender_step heffect hdeletes hreq

end

theorem gcInvariant_initial (hs : Initial s) : GcInvariant s where
  store := storeSafe_initial hs
  phases worker := by
    rw [hs.workers worker]
    trivial
  owner := by
    have hnone : ∀ worker reading, ¬ Owns s worker reading := by
      rintro worker reading ⟨pass, stage, hdeletes⟩
      cases (hs.workers worker).symm.trans hdeletes
    refine ⟨fun worker reading howns => absurd howns (hnone worker reading),
      fun worker _ reading _ howns => absurd howns (hnone worker reading), ?_, ?_⟩
    · intro request hreq
      rw [hs.inFlight] at hreq
      cases hreq
    intro worker pass reading stage hdeletes
    exact absurd ⟨pass, stage, hdeletes⟩ (hnone worker reading)

theorem gcInvariant_step (h : GcInvariant s) (hstep : step s a = some t) : GcInvariant t := by
  have heffect := effect_of_step hstep
  exact ⟨h.store.step h.phases heffect, phases_step h.store h.phases heffect, h.owner.step heffect⟩

theorem gcInvariant (hs : machine.Reachable s) : GcInvariant s := by
  apply hs.invariant GcInvariant
  · exact fun _ => gcInvariant_initial
  exact fun _ _ _ _ h hstep => gcInvariant_step h hstep

end ImApp.MediaGc
