import ImApp.Retention.CompactPlan
import ImApp.RetentionJobs.Leases

/-!
The published visibility. A boundary is published only with the end of an
application whose positive boundary the bridge acknowledged, so it stays behind
the durable minimum of the conversation whatever order claims, applications and
completions take.
-/

namespace ImApp.RetentionJobs

open ImApp.Retention List Function Option
open LeaseRow StepSystem

variable {config : Config} {s t : RetentionState}

/-- What a step can do to the bridge's minimums and to the published state. -/
inductive PublishStep (s t : RetentionState) : Prop
  | same (hminimum : t.openimMinSeq = s.openimMinSeq)
      (hack : t.acknowledgements = s.acknowledgements)
      (hvisib : t.visibility = s.visibility)
  | raised (conversationID : JsonText.Text) (seq : Int)
      (hminimum : t.openimMinSeq = Function.update s.openimMinSeq conversationID
        (max (s.openimMinSeq conversationID) seq))
      (hack : t.acknowledgements = s.acknowledgements)
      (hvisib : t.visibility = s.visibility)
  | acknowledged (lease : RetentionApplication) (boundary : Int)
      (hlease : lease ∈ s.applicationClaims) (hplan : retentionMinSeq lease.plan = some boundary)
      (hminimum : t.openimMinSeq = Function.update s.openimMinSeq (conversationOf lease.groupID)
        (max (s.openimMinSeq (conversationOf lease.groupID)) boundary))
      (hack : t.acknowledgements = ⟨lease, boundary⟩ :: s.acknowledgements)
      (hvisib : t.visibility = s.visibility)
  | published (acknowledgement : Acknowledgement) (revision : Nat)
      (hmem : acknowledgement ∈ s.acknowledgements)
      (hminimum : t.openimMinSeq = s.openimMinSeq)
      (hack : t.acknowledgements = s.acknowledgements)
      (hbehind : ∀ before, s.visibility acknowledgement.application.groupID = some before →
        before.minVisibleSeq < acknowledgement.boundary)
      (hvisib : t.visibility = Function.update s.visibility
        acknowledgement.application.groupID (some ⟨acknowledgement.boundary, revision⟩))

theorem publish_step {a : Action} (hstep : step config s a = some t) : PublishStep s t := by
  cases effect_of_step hstep with
  | @advanced lease localTime answered boundary hlease hbound hconv =>
    rw [hconv]
    cases answered with
    | false => exact .raised (conversationOf lease.groupID) boundary rfl rfl rfl
    | true => exact .acknowledged lease boundary hlease hbound rfl rfl rfl
  | @published lease row boundary revision hleased hack hbehind =>
    exact .published ⟨lease, boundary⟩ revision hack rfl rfl hbehind rfl
  | raised conversationID seq => exact .raised conversationID seq rfl rfl rfl
  | _ => exact .same rfl rfl rfl

theorem PublishStep.minimum_le (h : PublishStep s t) (conversationID : JsonText.Text) :
    s.openimMinSeq conversationID ≤ t.openimMinSeq conversationID := by
  have hmax : ∀ target seq, s.openimMinSeq conversationID ≤
      Function.update s.openimMinSeq target (max (s.openimMinSeq target) seq) conversationID := by
    intro target seq
    by_cases htgt : conversationID = target
    · subst htgt
      rw [update_self]
      exact le_max_left _ _
    rw [update_of_ne htgt]
  cases h with
  | same hminimum | published acknowledgement revision hmem hminimum => rw [hminimum]
  | raised target seq hminimum =>
    rw [hminimum]
    exact hmax target seq
  | acknowledged lease boundary hlease hplan hminimum =>
    rw [hminimum]
    exact hmax _ boundary

theorem PublishStep.acknowledgements_mem (h : PublishStep s t)
    {acknowledgement : Acknowledgement} (hmem : acknowledgement ∈ s.acknowledgements) :
    acknowledgement ∈ t.acknowledgements := by
  cases h with
  | same _ hack | raised _ _ _ hack | published _ _ _ _ hack =>
    exact hack ▸ hmem
  | acknowledged _ _ _ _ _ hack =>
    rw [hack]
    exact mem_cons_of_mem _ hmem

/-- A published boundary never decreases. -/
def VisibilityLe (s t : RetentionState) : Prop :=
  ∀ groupID before, s.visibility groupID = some before →
    ∃ after, t.visibility groupID = some after ∧ before.minVisibleSeq ≤ after.minVisibleSeq

theorem PublishStep.visibility_le (h : PublishStep s t) : VisibilityLe s t := by
  intro groupID before hpre
  cases h with
  | same _ _ hvisib | raised _ _ _ _ hvisib | acknowledged _ _ _ _ _ _ hvisib =>
    exact ⟨before, hvisib ▸ hpre, le_rfl⟩
  | published acknowledgement revision _ _ _ hbehind hvisib =>
    rw [hvisib]
    by_cases hgroup : groupID = acknowledgement.application.groupID
    · subst hgroup
      rw [update_self]
      exact ⟨_, rfl, (hbehind before hpre).le⟩
    rw [update_of_ne hgroup]
    exact ⟨before, hpre, le_rfl⟩

/-- The lease's plan is the persisted plan of its group. -/
def PlanOfGroup (s : RetentionState) (lease : RetentionApplication) : Prop :=
  ∃ job saved, s.jobs lease.jobID = some job ∧ job.row.stage = .done saved ∧
    saved.plan = lease.plan ∧ job.groupID = lease.groupID

structure PublishInvariant (s : RetentionState) : Prop where
  leases : LeaseInvariant s
  plans : ∀ lease ∈ s.applicationClaims, PlanOfGroup s lease
  claimed : ∀ acknowledgement ∈ s.acknowledgements,
    acknowledgement.application ∈ s.applicationClaims
  boundaries : ∀ acknowledgement ∈ s.acknowledgements,
    retentionMinSeq acknowledgement.application.plan = some acknowledgement.boundary
  durable : ∀ acknowledgement ∈ s.acknowledgements, acknowledgement.boundary ≤
    s.openimMinSeq (conversationOf acknowledgement.application.groupID)
  published : ∀ groupID published, s.visibility groupID = some published →
    ∃ acknowledgement ∈ s.acknowledgements, acknowledgement.application.groupID = groupID ∧
      acknowledgement.boundary = published.minVisibleSeq

theorem publishInvariant_initial (h : Initial s) : PublishInvariant s where
  leases := leaseInvariant_initial h
  plans lease hlease := by simp [h.applicationClaims] at hlease
  claimed acknowledgement hmem := by simp [h.acknowledgements] at hmem
  boundaries acknowledgement hmem := by simp [h.acknowledgements] at hmem
  durable acknowledgement hmem := by simp [h.acknowledgements] at hmem
  published groupID published hpublished := by simp [h.visibility groupID] at hpublished

theorem planOfGroup_step {a : Action} (h : LeaseInvariant s) (hstep : step config s a = some t)
    {lease : RetentionApplication} (hplan : PlanOfGroup s lease) : PlanOfGroup t lease := by
  obtain ⟨job, saved, hjob, hstage, hsame, hgroup⟩ := hplan
  exact ⟨job, saved, job_kept h.below hstep hjob (by rw [hstage]; rfl), hstage, hsame, hgroup⟩

theorem claims_mono {a : Action} (hstep : step config s a = some t)
    {lease : RetentionApplication} (hlease : lease ∈ s.applicationClaims) :
    lease ∈ t.applicationClaims := by
  cases claims_step hstep with
  | same _ _ _ happs | job _ _ _ _ _ happs => exact happs ▸ hlease
  | application leases _ _ _ _ happs =>
    rw [happs]
    exact mem_append_right _ hlease

theorem publishInvariant_step {a : Action} (h : PublishInvariant s)
    (hstep : step config s a = some t) : PublishInvariant t where
  leases := leaseInvariant_step h.leases hstep
  plans := by
    intro lease hlease
    apply planOfGroup_step h.leases hstep
    cases claims_step hstep with
    | same _ _ _ happs | job _ _ _ _ _ happs =>
      exact h.plans lease (happs ▸ hlease)
    | application leases _ _ _ hleases happs =>
      rw [happs, mem_append] at hlease
      rcases hlease with hlease | hlease
      · rcases hleases with rfl | ⟨new, saved, rfl, _, hplanned, hplan, hgroup⟩
        · exact absurd hlease (by simp)
        obtain rfl := mem_singleton.mp hlease
        obtain ⟨job, hjob, hstage⟩ := planned_eq_some.mp hplanned
        rw [hjob] at hgroup
        exact ⟨job, saved, hjob, hstage, hplan.symm, some.inj hgroup⟩
      exact h.plans lease hlease
  claimed := by
    intro acknowledgement hmem
    apply claims_mono hstep
    cases publish_step hstep with
    | same _ hack | raised _ _ _ hack | published _ _ _ _ hack =>
      exact h.claimed _ (hack ▸ hmem)
    | acknowledged lease boundary hlease _ _ hack =>
      rw [hack] at hmem
      rcases mem_cons.mp hmem with rfl | hmem
      · exact hlease
      exact h.claimed _ hmem
  boundaries := by
    intro acknowledgement hmem
    cases publish_step hstep with
    | same _ hack | raised _ _ _ hack | published _ _ _ _ hack =>
      exact h.boundaries _ (hack ▸ hmem)
    | acknowledged lease boundary _ hplan _ hack =>
      rw [hack] at hmem
      rcases mem_cons.mp hmem with rfl | hmem
      · exact hplan
      exact h.boundaries _ hmem
  durable := by
    intro acknowledgement hmem
    have hpublish := publish_step hstep
    have hgrows := hpublish.minimum_le (conversationOf acknowledgement.application.groupID)
    cases hpublish with
    | same _ hack | raised _ _ _ hack | published _ _ _ _ hack =>
      exact (h.durable _ (hack ▸ hmem)).trans hgrows
    | acknowledged lease boundary _ _ hminimum hack =>
      rw [hack] at hmem
      rcases mem_cons.mp hmem with rfl | hmem
      · rw [hminimum, update_self]
        exact le_max_right _ _
      exact (h.durable _ hmem).trans hgrows
  published := by
    intro groupID published hpublished
    have hpublish := publish_step hstep
    have hkept : s.visibility groupID = some published →
        ∃ acknowledgement ∈ t.acknowledgements, acknowledgement.application.groupID = groupID ∧
          acknowledgement.boundary = published.minVisibleSeq := by
      intro hpre
      obtain ⟨acknowledgement, hmem, hgroup, hvalue⟩ := h.published groupID published hpre
      exact ⟨acknowledgement, hpublish.acknowledgements_mem hmem, hgroup, hvalue⟩
    cases hpublish with
    | same _ _ hvisib | raised _ _ _ _ hvisib | acknowledged _ _ _ _ _ _ hvisib =>
      exact hkept (hvisib ▸ hpublished)
    | published acknowledgement revision hmem _ hack _ hvisib =>
      by_cases hgroup : groupID = acknowledgement.application.groupID
      · subst hgroup
        rw [hvisib, update_self] at hpublished
        refine ⟨acknowledgement, hack ▸ hmem, rfl, ?_⟩
        rw [← some.inj hpublished]
      rw [hvisib, update_of_ne hgroup] at hpublished
      exact hkept hpublished

/-- A published boundary is the boundary of a persisted plan of the group that the
bridge acknowledged, and it does not exceed the durable minimum. -/
structure PublishedSafely (s : RetentionState) (groupID : GroupID) (published : Published) :
    Prop where
  durable : published.minVisibleSeq ≤ s.openimMinSeq (conversationOf groupID)
  acknowledged : ∃ id job saved acknowledgement, s.jobs id = some job ∧ job.groupID = groupID ∧
    job.row.stage = .done saved ∧ retentionMinSeq saved.plan = some published.minVisibleSeq ∧
    acknowledgement ∈ s.acknowledgements ∧ acknowledgement.application.jobID = id ∧
    acknowledgement.boundary = published.minVisibleSeq

/-- In every run the published boundary of a group never decreases, never exceeds
the durable minimum and is always the acknowledged boundary of one of the group's
plans. -/
theorem published_visibility_safe (config : Config) : ∀ s, (machine config).Reachable s →
      (∀ groupID published, s.visibility groupID = some published →
        PublishedSafely s groupID published) ∧
      ∀ t, (machine config).Path Machine.unrestricted s t → VisibilityLe s t := by
  intro s hs
  have hinv : PublishInvariant s := hs.invariant PublishInvariant
    (fun _ => publishInvariant_initial) (fun _ _ _ _ h hstep => publishInvariant_step h hstep)
  constructor
  · intro groupID published hpublished
    obtain ⟨acknowledgement, hmem, rfl, hvalue⟩ :=
      hinv.published groupID published hpublished
    obtain ⟨job, saved, hjob, hstage, hplan, hgroup⟩ :=
      hinv.plans _ (hinv.claimed _ hmem)
    refine ⟨hvalue ▸ hinv.durable _ hmem,
      acknowledgement.application.jobID, job, saved, acknowledgement, hjob, hgroup, hstage, ?_,
      hmem, rfl, hvalue⟩
    rw [hplan, ← hvalue]
    exact hinv.boundaries _ hmem
  intro t path
  refine path.relates (fun _ => True) VisibilityLe ?_ ?_ (fun _ _ _ _ _ _ => trivial) ?_ trivial
  · exact fun s groupID before hpre => ⟨before, hpre, le_rfl⟩
  · intro s t u hst htu groupID before hpre
    obtain ⟨middle, hmiddle, hle⟩ := hst groupID before hpre
    obtain ⟨after, hafter, hle'⟩ := htu groupID middle hmiddle
    exact ⟨after, hafter, hle.trans hle'⟩
  exact fun s a t _ _ hstep => (publish_step hstep).visibility_le

/-- The plan of `agedHistory`. -/
def agedPlan : RetentionPlan where
  snapshotID := ['s']
  mode := previewOnly
  conversationID := conversationOf agedHistory.groupID
  serverTime := unixMilli 10000000
  cutoff := unixMilli 10000000 - hour
  watermark := 3
  maxMessages := 1
  overCountThrough := 1
  kept := [3]
  candidates := [⟨2, true, true⟩]
  hiddenCount := 0
  afterWatermarkCount := 0

def agedApplication : RetentionApplication := ⟨0, agedHistory.groupID, 1, 1, agedPlan⟩

/-- The group's history planned, applied and published without a failure. -/
def agedActions : List Action :=
  [.setActive agedHistory.groupID true, .takeSnapshot agedHistory,
    .enqueueToday agedHistory.groupID, .claim [],
    .savePlan ⟨0, agedHistory.groupID, 0, 1⟩ (agedRows 2 1) agedHistory.policy,
    .backfillApplications, .claimApplication [],
    .applyPrefix agedApplication (unixMilli 10000000) true,
    .completeApplication agedApplication]

theorem agedActions_publish : ∃ s, (machine ⟨[], fun _ => 0⟩).Reachable s ∧
      s.visibility agedHistory.groupID = some ⟨3, 1⟩ ∧
      PublishedSafely s agedHistory.groupID ⟨3, 1⟩ := by
  have hrun : ((machine ⟨[], fun _ => 0⟩).execute (idleState 0) agedActions).any
      (fun s => s.visibility agedHistory.groupID = some ⟨3, 1⟩) = true := by
    decide
  obtain ⟨s, hs, hpublished⟩ := (any_eq_true _ _).mp hrun
  have hreach : (machine ⟨[], fun _ => 0⟩).Reachable s :=
    Machine.reachable_of_execute (idleState_initial 0) hs
  have hvalue := of_decide_eq_true hpublished
  obtain ⟨hsafe, _⟩ := published_visibility_safe ⟨[], fun _ => 0⟩ s hreach
  exact ⟨s, hreach, hvalue, hsafe _ _ hvalue⟩

end ImApp.RetentionJobs
