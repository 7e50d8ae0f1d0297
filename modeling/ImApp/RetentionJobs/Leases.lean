import ImApp.RetentionJobs.State

/-!
The two lease tables over all runs. Each step changes one table in a way that
the lease rules allow, so the attempts stay bounded, an ended row stays as it
is, and a leased row changes only under its current unexpired token or after the
lease.
-/

namespace ImApp.RetentionJobs

open ImApp.Retention List Option Function Bool
open LeaseRow StepSystem

variable {config : Config} {s t : RetentionState}

theorem leasedJob_eq_some {lease : RetentionJob} {job : Job} (h : leasedJob s lease = some job) :
    s.jobs lease.id = some job ∧ job.row.holds s.now lease.leaseToken = true :=
  filter_eq_some_iff.mp h

theorem leasedApplication_eq_some {lease : RetentionApplication} {row : Row Unit ApplyFailure}
    (h : leasedApplication s lease = some row) :
    s.applications lease.jobID = some row ∧ row.holds s.now lease.leaseToken = true :=
  filter_eq_some_iff.mp h

theorem pickJob_eq_some {locked : List Nat} {id : Nat} (h : pickJob config s locked = some id) :
    id < s.nextJob ∧ ∃ job, s.jobs id = some job ∧ jobClaimable config s job = true := by
  have hrange := mem_of_find?_eq_some h
  have hpred := find?_some h
  simp only [and_eq_true] at hpred
  obtain ⟨job, hjob, hable⟩ := (any_eq_true _ _).mp hpred.2
  exact ⟨mem_range.mp hrange, job, hjob, hable⟩

theorem planned_eq_some {id : Nat} {saved : SavedPlan} :
    planned s id = some saved ↔ ∃ job, s.jobs id = some job ∧ job.row.stage = .done saved := by
  unfold planned
  rw [bind_eq_some_iff]
  refine exists_congr fun job => and_congr_right fun _ => ?_
  cases job.row.stage <;> simp

theorem applicationClaimable_iff {id : Nat} :
    applicationClaimable config s id = true ↔ ∃ job row, s.jobs id = some job ∧
      s.applications id = some row ∧ eligible config s job.groupID = true ∧
      waitsForEarlier s job.groupID id = false ∧
      row.claimable retentionMaxAttempts s.now = true := by
  unfold applicationClaimable
  rw [Option.any_eq_true]
  simp only [and_eq_true, not_eq_true', Option.any_eq_true]
  constructor
  · rintro ⟨job, hjob, ⟨heligible, hfirst⟩, row, hrow, hable⟩
    exact ⟨job, row, hjob, hrow, heligible, hfirst, hable⟩
  rintro ⟨job, row, hjob, hrow, heligible, hfirst, hable⟩
  exact ⟨job, hjob, ⟨heligible, hfirst⟩, row, hrow, hable⟩

theorem pickApplication_eq_some {locked : List Nat} {id : Nat}
    (h : pickApplication config s locked = some id) :
    id < s.nextJob ∧ applicationClaimable config s id = true := by
  have hrange := mem_of_find?_eq_some h
  have hpred := find?_some h
  simp only [and_eq_true] at hpred
  exact ⟨mem_range.mp hrange, hpred.2⟩

/-- The lease that a claim on a planned job hands out. -/
def handedOut (s : RetentionState) (id : Nat) (job : Job) (row : Row Unit ApplyFailure) :
    List RetentionApplication :=
  match planned s id with
  | none => s.applicationClaims
  | some saved =>
    ⟨id, job.groupID, s.nextToken, row.attempts + 1, saved.plan⟩ :: s.applicationClaims

/-- Everything that a step can do. -/
inductive Effect (config : Config) (s : RetentionState) : Action → RetentionState → Prop
  | idle (a : Action) : Effect config s a s
  | ticked (seconds : Nat) : Effect config s (.tick seconds) { s with now := s.now + seconds }
  | activeSet (groupID : GroupID) (active : Bool) : Effect config s (.setActive groupID active)
      { s with active := Function.update s.active groupID active }
  | enqueued (groupID : GroupID) : Effect config s (.enqueueToday groupID)
      { s with
        nextJob := s.nextJob + 1
        jobs := Function.update s.jobs s.nextJob (some ⟨groupID, day s, .fresh s.now⟩) }
  | jobsExhausted : Effect config s .exhaustJobs (exhaustJobs config s)
  | claimed (locked : List Nat) {id : Nat} {job : Job} (hjob : s.jobs id = some job)
      (hable : jobClaimable config s job = true) : Effect config s (.claim locked)
      { withJobRow s id job (job.row.claim s.now retentionLeaseTTL s.nextToken) with
        nextToken := s.nextToken + 1
        jobClaims := ⟨id, job.groupID, s.nextToken, job.row.attempts + 1⟩ :: s.jobClaims }
  | planSaved (lease : RetentionJob) (snapshot : RetentionSnapshot) (policy : RetentionPolicy)
      {job : Job} (saved : SavedPlan) (hleased : leasedJob s lease = some job) :
      Effect config s (.savePlan lease snapshot policy)
        (withJobRow s lease.id job (job.row.finish saved))
  | retried (lease : RetentionJob) (code : JobFailure) {job : Job}
      (hleased : leasedJob s lease = some job) : Effect config s (.retry lease code)
      (withJobRow s lease.id job
        (job.row.release retentionMaxAttempts s.now (retryDelay lease.attempts) code false))
  | backfilled : Effect config s .backfillApplications (backfillApplications config s)
  | applicationsExhausted : Effect config s .exhaustApplications (exhaustApplications config s)
  | applicationClaimed (locked : List Nat) {id : Nat} {job : Job} {row : Row Unit ApplyFailure}
      (hjob : s.jobs id = some job) (hrow : s.applications id = some row)
      (hable : applicationClaimable config s id = true) :
      Effect config s (.claimApplication locked)
        { withApplication s id (row.claim s.now retentionLeaseTTL s.nextToken) with
          nextToken := s.nextToken + 1
          applicationClaims := handedOut s id job row }
  | advanced (lease : RetentionApplication) (localTime : Retention.Time) (answered : Bool)
      {boundary : Int} (hlease : lease ∈ s.applicationClaims)
      (hboundary : retentionMinSeq lease.plan = some boundary)
      (hconv : lease.plan.conversationID = conversationOf lease.groupID) :
      Effect config s (.applyPrefix lease localTime answered) { s with
          openimMinSeq := Function.update s.openimMinSeq lease.plan.conversationID
            (max (s.openimMinSeq lease.plan.conversationID) boundary)
          acknowledgements :=
            if answered then ⟨lease, boundary⟩ :: s.acknowledgements else s.acknowledgements }
  | completed (lease : RetentionApplication) {row : Row Unit ApplyFailure}
      (hleased : leasedApplication s lease = some row) :
      Effect config s (.completeApplication lease) (withApplication s lease.jobID (row.finish ()))
  | published (lease : RetentionApplication) {row : Row Unit ApplyFailure} {boundary : Int}
      (revision : Nat) (hleased : leasedApplication s lease = some row)
      (hack : ⟨lease, boundary⟩ ∈ s.acknowledgements)
      (hbehind : ∀ before, s.visibility lease.groupID = some before →
        before.minVisibleSeq < boundary) :
      Effect config s (.completeApplication lease) (withApplication { s with
          visibility := Function.update s.visibility lease.groupID (some ⟨boundary, revision⟩) }
          lease.jobID (row.finish ()))
  | applicationRetried (lease : RetentionApplication) (code : ApplyFailure)
      {row : Row Unit ApplyFailure} (hleased : leasedApplication s lease = some row) :
      Effect config s (.retryApplication lease code) (withApplication s lease.jobID
          (row.release retentionMaxAttempts s.now (retryDelay lease.attempts) code
            (code = .nonPrefix)))
  | snapshotTaken (request : SnapshotRequest) (receipt : Receipt) :
      Effect config s (.takeSnapshot request) { s with receipts := receipt :: s.receipts }
  | raised (conversationID : JsonText.Text) (seq : Int) :
      Effect config s (.raiseMinSeq conversationID seq) { s with
          openimMinSeq := Function.update s.openimMinSeq conversationID
            (max (s.openimMinSeq conversationID) seq) }

variable (config s) in
theorem claim_effect (locked : List Nat) :
    Effect config s (.claim locked) (claim config s locked) := by
  unfold claim
  cases hpick : pickJob config s locked with
  | none => exact .idle _
  | some id =>
    obtain ⟨_, job, hjob, hable⟩ := pickJob_eq_some hpick
    simp only [hjob]
    exact .claimed locked hjob hable

theorem savePlan_effect (lease : RetentionJob) (snapshot : RetentionSnapshot)
    (policy : RetentionPolicy) :
    Effect config s (.savePlan lease snapshot policy) (savePlan config s lease snapshot policy) := by
  unfold savePlan
  split
  · exact .idle _
  split
  · exact .idle _
  split
  · exact .idle _
  dsimp only
  split
  · exact .idle _
  rename_i hjob
  exact .planSaved lease snapshot policy _ (filter_eq_some_iff.mp hjob).1

variable (config s) in
theorem claimApplication_effect (locked : List Nat) :
    Effect config s (.claimApplication locked) (claimApplication config s locked) := by
  unfold claimApplication
  cases hpick : pickApplication config s locked with
  | none => exact .idle _
  | some id =>
    have hable := (pickApplication_eq_some hpick).2
    obtain ⟨job, row, hjob, hrow, _⟩ := applicationClaimable_iff.mp hable
    have heffect := Effect.applicationClaimed locked hjob hrow hable
    simp only [hjob, hrow]
    cases hplanned : planned s id with
    | none | some saved =>
      rw [handedOut, hplanned] at heffect
      exact heffect

theorem applyPrefix_effect {lease : RetentionApplication} (hlease : lease ∈ s.applicationClaims)
    (localTime : Retention.Time) (answered : Bool) :
    Effect config s (.applyPrefix lease localTime answered)
      (applyPrefix s lease localTime answered) := by
  unfold applyPrefix
  split
  · exact .idle _
  rename_i hboundary
  split
  · rename_i hadmitted
    exact .advanced lease localTime answered hlease hboundary hadmitted.2.2.1
  exact .idle _

theorem completeApplication_effect {lease : RetentionApplication} {boundary : Int}
    (hmay : mayComplete s lease boundary = true) :
    Effect config s (.completeApplication lease) (completeApplication s lease boundary) := by
  unfold completeApplication
  split
  · rename_i row job saved hrow hjob hsaved
    split
    · exact .idle _
    dsimp only
    split
    · exact .idle _
    rename_i hbound
    push Not at hbound
    obtain ⟨rfl, hgroup, _⟩ := hbound
    split
    · rename_i hpos
      have hack : ⟨lease, boundary⟩ ∈ s.acknowledgements := by
        simp only [mayComplete, or_eq_true, decide_eq_true_eq, contains_iff_mem] at hmay
        rcases hmay with hneg | hmem
        · omega
        exact hmem
      rw [hgroup]
      unfold publish
      split
      · rename_i hnone
        exact .published lease 1 hrow hack (by simp [hnone])
      rename_i before hpre
      split
      · rename_i hlt
        refine .published lease _ hrow hack ?_
        intro other hother
        cases hpre.symm.trans hother
        exact hlt
      exact .completed lease hrow
    exact .completed lease hrow
  exact .idle _

theorem effect_of_step {a : Action} (hstep : step config s a = some t) : Effect config s a t := by
  cases a with
  | tick seconds =>
    cases hstep
    exact .ticked seconds
  | setActive groupID active =>
    cases hstep
    exact .activeSet groupID active
  | enqueueToday groupID =>
    cases hstep
    unfold enqueueToday
    dsimp only
    split
    · exact .enqueued groupID
    exact .idle _
  | exhaustJobs =>
    cases hstep
    exact .jobsExhausted
  | claim locked =>
    cases hstep
    exact claim_effect config s locked
  | savePlan lease snapshot policy =>
    obtain ⟨_, ⟨⟩⟩ := ite_none_right_eq_some.mp hstep
    exact savePlan_effect lease snapshot policy
  | retry lease code =>
    obtain ⟨_, ⟨⟩⟩ := ite_none_right_eq_some.mp hstep
    unfold retry
    split
    · exact .idle _
    cases hjob : leasedJob s lease with
    | none => exact .idle _
    | some job => exact .retried lease code hjob
  | backfillApplications =>
    cases hstep
    exact .backfilled
  | exhaustApplications =>
    cases hstep
    exact .applicationsExhausted
  | claimApplication locked =>
    cases hstep
    exact claimApplication_effect config s locked
  | applyPrefix lease localTime answered =>
    obtain ⟨hlease, ⟨⟩⟩ := ite_none_right_eq_some.mp hstep
    exact applyPrefix_effect hlease localTime answered
  | completeApplication lease =>
    simp only [step] at hstep
    split at hstep
    · cases hstep
    obtain ⟨hmay, ⟨⟩⟩ := ite_none_right_eq_some.mp hstep
    exact completeApplication_effect hmay.2
  | retryApplication lease code =>
    obtain ⟨_, ⟨⟩⟩ := ite_none_right_eq_some.mp hstep
    unfold retryApplication
    split
    · exact .idle _
    cases hrow : leasedApplication s lease with
    | none => exact .idle _
    | some row => exact .applicationRetried lease code hrow
  | takeSnapshot request =>
    cases hstep
    unfold takeSnapshot
    split
    · exact .idle _
    split
    · exact .idle _
    exact .snapshotTaken request _
  | raiseMinSeq conversationID seq =>
    cases hstep
    exact .raised conversationID seq

/-- How an action works on the job `id`. -/
def Action.jobCaller (a : Action) (id : Nat) : Row.Caller :=
  match a with
  | .exhaustJobs | .claim _ => .claim
  | .savePlan lease _ _ | .retry lease _ => if lease.id = id then .lease lease.leaseToken else .other
  | _ => .other

/-- How an action works on the application of the job `id`. -/
def Action.applicationCaller (a : Action) (id : Nat) : Row.Caller :=
  match a with
  | .exhaustApplications | .claimApplication _ => .claim
  | .completeApplication lease | .retryApplication lease _ =>
    if lease.jobID = id then .lease lease.leaseToken else .other
  | _ => .other

/-- Everything that one step can do to the job `id`. -/
inductive JobStep (s t : RetentionState) (a : Action) (id : Nat) : Option Job → Option Job → Prop
  | absent : JobStep s t a id none none
  | inserted (groupID : GroupID) (hid : id = s.nextJob) (hnext : t.nextJob = s.nextJob + 1) :
      JobStep s t a id none (some ⟨groupID, day s, .fresh s.now⟩)
  | changed (job : Job) (row : Row SavedPlan JobFailure)
      (h : Row.Change retentionMaxAttempts s.now (a.jobCaller id) job.row row) :
      JobStep s t a id (some job) (some { job with row := row })

/-- Everything that one step can do to the application of the job `id`. -/
inductive ApplicationStep (s : RetentionState) (a : Action) (id : Nat) :
    Option (Row Unit ApplyFailure) → Option (Row Unit ApplyFailure) → Prop
  | absent : ApplicationStep s a id none none
  | inserted (hplanned : (planned s id).isSome) : ApplicationStep s a id none (some (.fresh s.now))
  | changed (row next : Row Unit ApplyFailure)
      (h : Row.Change retentionMaxAttempts s.now (a.applicationCaller id) row next) :
      ApplicationStep s a id (some row) (some next)

section Rows

variable {a : Action} {id : Nat}

theorem JobStep.refl : JobStep s t a id (s.jobs id) (s.jobs id) := by
  cases s.jobs id with
  | none => exact .absent
  | some job => exact .changed job job.row (.same _ _)

theorem ApplicationStep.refl : ApplicationStep s a id (s.applications id) (s.applications id) := by
  cases s.applications id with
  | none => exact .absent
  | some row => exact .changed row row (.same _ _)

theorem JobStep.update {target : Nat} {job : Job} {row : Row SavedPlan JobFailure}
    (hjob : s.jobs target = some job)
    (h : Row.Change retentionMaxAttempts s.now (a.jobCaller target) job.row row) :
    JobStep s t a id (s.jobs id) ((withJobRow s target job row).jobs id) := by
  by_cases hid : id = target
  · subst hid
    simp only [withJobRow, update_self, hjob]
    exact .changed job row h
  simp only [withJobRow, update_of_ne hid]
  exact .refl

theorem ApplicationStep.update {target : Nat} {row next : Row Unit ApplyFailure}
    (hrow : s.applications target = some row)
    (h : Row.Change retentionMaxAttempts s.now (a.applicationCaller target) row next) :
    ApplicationStep s a id (s.applications id)
      ((withApplication s target next).applications id) := by
  by_cases hid : id = target
  · subst hid
    simp only [withApplication, update_self, hrow]
    exact .changed row next h
  simp only [withApplication, update_of_ne hid]
  exact .refl

/-- Jobs are stored under ids that were given out. -/
def JobsBelow (s : RetentionState) : Prop := ∀ id, (s.jobs id).isSome → id < s.nextJob

theorem jobs_step (hbelow : JobsBelow s) (hstep : step config s a = some t) (id : Nat) :
    JobStep s t a id (s.jobs id) (t.jobs id) := by
  cases effect_of_step hstep with
  | enqueued groupID =>
    by_cases hid : id = s.nextJob
    · have hnone : s.jobs id = none := by
        by_contra hsome
        exact absurd (hbelow id (isSome_iff_ne_none.mpr hsome)) (by omega)
      subst hid
      simp only [hnone, update_self]
      exact .inserted groupID rfl rfl
    simp only [update_of_ne hid]
    exact .refl
  | jobsExhausted =>
    simp only [exhaustJobs]
    cases hjob : s.jobs id with
    | none => exact .absent
    | some job =>
      simp only [map_some]
      split
      · rename_i hexh
        simp only [jobExhausted, and_eq_true] at hexh
        exact .changed job _ (.exhaust _ hexh.2)
      exact .changed job job.row (.same _ _)
  | claimed locked hjob hable =>
    simp only [jobClaimable, and_eq_true] at hable
    exact .update hjob (.claim _ _ hable.2)
  | planSaved lease snapshot policy saved hleased =>
    obtain ⟨hjob, hholds⟩ := leasedJob_eq_some hleased
    refine .update hjob ?_
    simp only [Action.jobCaller, if_true]
    exact .finish _ hholds
  | retried lease code hleased =>
    obtain ⟨hjob, hholds⟩ := leasedJob_eq_some hleased
    refine .update hjob ?_
    simp only [Action.jobCaller, if_true]
    exact .release _ _ _ hholds
  | _ => exact .refl

theorem applications_step (hstep : step config s a = some t) (id : Nat) :
    ApplicationStep s a id (s.applications id) (t.applications id) := by
  cases effect_of_step hstep with
  | backfilled =>
    simp only [backfillApplications]
    split
    · rename_i hmem
      have hfilter := mem_of_mem_take hmem
      simp only [mem_filter, and_eq_true, isNone_iff_eq_none] at hfilter
      rw [hfilter.2.2]
      exact .inserted hfilter.2.1.1
    exact .refl
  | applicationsExhausted =>
    simp only [exhaustApplications]
    cases hrow : s.applications id with
    | none => exact .absent
    | some row =>
      simp only [map_some]
      split
      · rename_i hexh
        simp only [applicationExhausted, and_eq_true] at hexh
        exact .changed row _ (.exhaust _ hexh.2)
      exact .changed row row (.same _ _)
  | applicationClaimed locked hjob hrow hable =>
    obtain ⟨_, row', _, hrow', _, _, hpredicate⟩ := applicationClaimable_iff.mp hable
    cases hrow.symm.trans hrow'
    exact .update hrow (.claim _ _ hpredicate)
  | completed lease hleased | published lease revision hleased =>
    obtain ⟨hrow, hholds⟩ := leasedApplication_eq_some hleased
    refine .update hrow ?_
    simp only [Action.applicationCaller, if_true]
    exact .finish _ hholds
  | applicationRetried lease code hleased =>
    obtain ⟨hrow, hholds⟩ := leasedApplication_eq_some hleased
    refine .update hrow ?_
    simp only [Action.applicationCaller, if_true]
    exact .release _ _ _ hholds
  | _ => exact .refl

end Rows

/-- The clock and the job ids only grow. -/
structure Advances (s t : RetentionState) : Prop where
  now : s.now ≤ t.now
  nextJob : s.nextJob ≤ t.nextJob

/-- A step hands out at most one lease, under the next token. -/
inductive ClaimsStep (s t : RetentionState) : Prop
  | same (hnext : Advances s t) (htoken : t.nextToken = s.nextToken) (hjobs : t.jobClaims = s.jobClaims)
      (happs : t.applicationClaims = s.applicationClaims)
  | job (lease : RetentionJob) (hnext : Advances s t) (htoken : t.nextToken = s.nextToken + 1)
      (hlease : lease.leaseToken = s.nextToken) (hjobs : t.jobClaims = lease :: s.jobClaims)
      (happs : t.applicationClaims = s.applicationClaims)
  | application (leases : List RetentionApplication) (hnext : Advances s t)
      (htoken : t.nextToken = s.nextToken + 1)
      (hjobs : t.jobClaims = s.jobClaims)
      (hleases : leases = [] ∨ ∃ lease saved, leases = [lease] ∧
        lease.leaseToken = s.nextToken ∧ planned s lease.jobID = some saved ∧
        lease.plan = saved.plan ∧
        (s.jobs lease.jobID).map Job.groupID = some lease.groupID)
      (happs : t.applicationClaims = leases ++ s.applicationClaims)

theorem claims_step {a : Action} (hstep : step config s a = some t) : ClaimsStep s t := by
  cases effect_of_step hstep with
  | ticked seconds => exact .same ⟨Nat.le_add_right _ _, le_rfl⟩ rfl rfl rfl
  | enqueued groupID => exact .same ⟨le_rfl, Nat.le_succ _⟩ rfl rfl rfl
  | claimed locked hjob hable => exact .job _ ⟨le_rfl, le_rfl⟩ rfl rfl rfl rfl
  | @applicationClaimed locked id job row hjob hrow hable =>
    cases hplanned : planned s id with
    | none =>
      refine .application [] ⟨le_rfl, le_rfl⟩ rfl rfl (.inl rfl) ?_
      simp [handedOut, hplanned]
    | some saved =>
      refine .application [⟨id, job.groupID, s.nextToken, row.attempts + 1, saved.plan⟩]
        ⟨le_rfl, le_rfl⟩ rfl rfl (.inr ⟨_, saved, rfl, rfl, hplanned, rfl, by simp [hjob]⟩) ?_
      simp [handedOut, hplanned]
  | _ => exact .same ⟨le_rfl, le_rfl⟩ rfl rfl rfl

structure LeaseInvariant (s : RetentionState) : Prop where
  below : JobsBelow s
  jobBounded : ∀ id job, s.jobs id = some job → job.row.Bounded retentionMaxAttempts
  applicationBounded : ∀ id row, s.applications id = some row → row.Bounded retentionMaxAttempts
  applicationPlanned : ∀ id, (s.applications id).isSome → (planned s id).isSome
  jobTokens : ∀ lease ∈ s.jobClaims, lease.leaseToken < s.nextToken
  jobTokensNodup : (s.jobClaims.map RetentionJob.leaseToken).Nodup
  applicationTokens : ∀ lease ∈ s.applicationClaims, lease.leaseToken < s.nextToken
  applicationTokensNodup : (s.applicationClaims.map RetentionApplication.leaseToken).Nodup

theorem leaseInvariant_initial (h : Initial s) : LeaseInvariant s where
  below id hsome := by simp [h.jobs id] at hsome
  jobBounded id job hjob := by simp [h.jobs id] at hjob
  applicationBounded id row hrow := by simp [h.applications id] at hrow
  applicationPlanned id hsome := by simp [h.applications id] at hsome
  jobTokens lease hlease := by simp [h.jobClaims] at hlease
  jobTokensNodup := by simp [h.jobClaims]
  applicationTokens lease hlease := by simp [h.applicationClaims] at hlease
  applicationTokensNodup := by simp [h.applicationClaims]

theorem job_kept {a : Action} (hbelow : JobsBelow s) (hstep : step config s a = some t)
    {id : Nat} {job : Job} (hjob : s.jobs id = some job)
    (hended : job.row.stage.terminal = true) : t.jobs id = some job := by
  have hrow := jobs_step hbelow hstep id
  rw [hjob] at hrow
  cases hnext : t.jobs id with
  | none =>
    rw [hnext] at hrow
    cases hrow
  | some next =>
    rw [hnext] at hrow
    cases hrow with
    | changed _ row hchange =>
      rw [hchange.terminal hended]

theorem planned_kept {a : Action} (hbelow : JobsBelow s) (hstep : step config s a = some t)
    {id : Nat} {saved : SavedPlan} (hplanned : planned s id = some saved) :
    planned t id = some saved := by
  obtain ⟨job, hjob, hstage⟩ := planned_eq_some.mp hplanned
  have hkept := job_kept hbelow hstep hjob (by rw [hstage]; rfl)
  exact planned_eq_some.mpr ⟨job, hkept, hstage⟩

theorem nodup_cons_fresh {β : Type*} {token : β → Nat} {leases : List β} {next : Nat} {lease : β}
    (hbelow : ∀ other ∈ leases, token other < next) (hnodup : (leases.map token).Nodup)
    (hlease : token lease = next) : ((lease :: leases).map token).Nodup := by
  rw [map_cons, nodup_cons]
  refine ⟨?_, hnodup⟩
  intro hmem
  obtain ⟨other, hother, heq⟩ := List.mem_map.mp hmem
  have := hbelow other hother
  omega

theorem step_advances {a : Action} (hstep : step config s a = some t) : Advances s t := by
  cases claims_step hstep with
  | same hnext | job lease hnext | application leases hnext => exact hnext

theorem leaseInvariant_step {a : Action} (h : LeaseInvariant s)
    (hstep : step config s a = some t) : LeaseInvariant t where
  below id hsome := by
    have hrow := jobs_step h.below hstep id
    obtain ⟨job, hjob⟩ := isSome_iff_exists.mp hsome
    rw [hjob] at hrow
    generalize hpre : s.jobs id = before at hrow
    cases hrow with
    | inserted groupID hid hnext => omega
    | changed job row hchange =>
      exact (h.below id (by simp [hpre])).trans_le (step_advances hstep).nextJob
  jobBounded id job hjob := by
    have hrow := jobs_step h.below hstep id
    rw [hjob] at hrow
    generalize hpre : s.jobs id = before at hrow
    cases hrow with
    | inserted groupID hid hnext => exact Row.bounded_fresh (by decide)
    | changed job row hchange => exact hchange.bounded (h.jobBounded id job hpre)
  applicationBounded id row hrow := by
    have hchange := applications_step hstep id
    rw [hrow] at hchange
    generalize hpre : s.applications id = before at hchange
    cases hchange with
    | inserted hplanned => exact Row.bounded_fresh (by decide)
    | changed row next hchange => exact hchange.bounded (h.applicationBounded id row hpre)
  applicationPlanned id hsome := by
    have hplanned : (planned s id).isSome := by
      have hchange := applications_step hstep id
      obtain ⟨row, hrow⟩ := isSome_iff_exists.mp hsome
      rw [hrow] at hchange
      generalize hpre : s.applications id = before at hchange
      cases hchange with
      | inserted hplanned => exact hplanned
      | changed row next hchange => exact h.applicationPlanned id (by simp [hpre])
    obtain ⟨saved, hsaved⟩ := isSome_iff_exists.mp hplanned
    simp [planned_kept h.below hstep hsaved]
  jobTokens := by
    intro lease hlease
    cases claims_step hstep with
    | same hnext htoken hjobs happs =>
      rw [htoken]
      exact h.jobTokens lease (hjobs ▸ hlease)
    | job new hnext htoken hnew hjobs happs =>
      rw [hjobs, mem_cons] at hlease
      rcases hlease with rfl | hlease
      · omega
      have := h.jobTokens lease hlease
      omega
    | application leases hnext htoken hjobs hleases happs =>
      have := h.jobTokens lease (hjobs ▸ hlease)
      omega
  jobTokensNodup := by
    cases claims_step hstep with
    | same hnext htoken hjobs happs
    | application leases hnext htoken hjobs hleases happs =>
      rw [hjobs]
      exact h.jobTokensNodup
    | job new hnext htoken hnew hjobs happs =>
      rw [hjobs]
      exact nodup_cons_fresh h.jobTokens h.jobTokensNodup hnew
  applicationTokens := by
    intro lease hlease
    cases claims_step hstep with
    | same hnext htoken hjobs happs =>
      rw [htoken]
      exact h.applicationTokens lease (happs ▸ hlease)
    | job new hnext htoken hnew hjobs happs =>
      have := h.applicationTokens lease (happs ▸ hlease)
      omega
    | application leases hnext htoken hjobs hleases happs =>
      rw [happs, mem_append] at hlease
      rcases hlease with hlease | hlease
      · rcases hleases with rfl | ⟨new, saved, rfl, hnew, _⟩
        · exact absurd hlease (by simp)
        obtain rfl := mem_singleton.mp hlease
        omega
      have := h.applicationTokens lease hlease
      omega
  applicationTokensNodup := by
    cases claims_step hstep with
    | same hnext htoken hjobs happs | job new hnext htoken hnew hjobs happs =>
      rw [happs]
      exact h.applicationTokensNodup
    | application leases hnext htoken hjobs hleases happs =>
      rw [happs]
      rcases hleases with rfl | ⟨new, saved, rfl, hnew, _⟩
      · exact h.applicationTokensNodup
      exact nodup_cons_fresh h.applicationTokens h.applicationTokensNodup hnew

theorem leaseInvariant_reachable (hs : (machine config).Reachable s) : LeaseInvariant s :=
  hs.invariant LeaseInvariant (fun _ => leaseInvariant_initial)
    (fun _ _ _ _ h hstep => leaseInvariant_step h hstep)

end ImApp.RetentionJobs
