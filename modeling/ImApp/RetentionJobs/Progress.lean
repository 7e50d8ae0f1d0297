import ImApp.RetentionJobs.Leases
import Mathlib.Algebra.Order.BigOperators.Group.Finset

/-!
What the retention queues keep and what they reach. No row is stuck: a job that
has not ended comes under the predicate of a claim as the clock advances, and so
does an application while claims keep running, because every earlier application
of its group ends.
-/

namespace ImApp.RetentionJobs

open ImApp.Retention List Option Function Bool
open LeaseRow StepSystem

variable {config : Config} {s t : RetentionState}

/-- The lease that a planner worker presents. -/
def Action.jobLease : Action → Option RetentionJob
  | .savePlan lease _ _ | .retry lease _ => some lease
  | _ => none

/-- The lease that an application worker presents for an update. -/
def Action.applicationLease : Action → Option RetentionApplication
  | .completeApplication lease | .retryApplication lease _ => some lease
  | _ => none

def Action.claimsJobs : Action → Bool
  | .exhaustJobs | .claim _ => true
  | _ => false

def Action.claimsApplications : Action → Bool
  | .exhaustApplications | .claimApplication _ => true
  | _ => false

/-- A leased job changes under the one lease with its current unexpired token, or
in a claim after the lease. -/
def JobsFenced (s : RetentionState) (a : Action) (t : RetentionState) : Prop :=
  ∀ id job token expires, s.jobs id = some job → job.row.stage = .leased token expires →
    t.jobs id ≠ some job →
    (∃ lease ∈ s.jobClaims, a.jobLease = some lease ∧ lease.id = id ∧
      lease.leaseToken = token ∧ s.now < expires ∧
      ∀ other ∈ s.jobClaims, other.leaseToken = token → other = lease) ∨
    (a.claimsJobs = true ∧ expires ≤ s.now)

def ApplicationsFenced (s : RetentionState) (a : Action) (t : RetentionState) : Prop :=
  ∀ id row token expires, s.applications id = some row → row.stage = .leased token expires →
    t.applications id ≠ some row →
    (∃ lease ∈ s.applicationClaims, a.applicationLease = some lease ∧ lease.jobID = id ∧
      lease.leaseToken = token ∧ s.now < expires ∧
      ∀ other ∈ s.applicationClaims, other.leaseToken = token → other = lease) ∨
    (a.claimsApplications = true ∧ expires ≤ s.now)

variable {a : Action} {id : Nat}

theorem jobCaller_lease {token : Nat} (h : a.jobCaller id = .lease token) :
    ∃ lease, a.jobLease = some lease ∧ lease.id = id ∧ lease.leaseToken = token := by
  cases a with
  | savePlan lease snapshot policy | retry lease code =>
    simp only [Action.jobCaller] at h
    split at h
    · rename_i hid
      cases h
      exact ⟨lease, rfl, hid, rfl⟩
    cases h
  | _ => cases h

theorem jobCaller_claim (h : a.jobCaller id = .claim) : a.claimsJobs = true := by
  cases a with
  | exhaustJobs | claim locked => rfl
  | savePlan lease snapshot policy | retry lease code =>
    simp only [Action.jobCaller] at h
    split at h <;> cases h
  | _ => cases h

theorem applicationCaller_lease {token : Nat} (h : a.applicationCaller id = .lease token) :
    ∃ lease, a.applicationLease = some lease ∧ lease.jobID = id ∧ lease.leaseToken = token := by
  cases a with
  | completeApplication lease | retryApplication lease code =>
    simp only [Action.applicationCaller] at h
    split at h
    · rename_i hid
      cases h
      exact ⟨lease, rfl, hid, rfl⟩
    cases h
  | _ => cases h

theorem applicationCaller_claim (h : a.applicationCaller id = .claim) :
    a.claimsApplications = true := by
  cases a with
  | exhaustApplications | claimApplication locked => rfl
  | completeApplication lease | retryApplication lease code =>
    simp only [Action.applicationCaller] at h
    split at h <;> cases h
  | _ => cases h

theorem jobLease_mem {lease : RetentionJob} (hstep : step config s a = some t)
    (hlease : a.jobLease = some lease) : lease ∈ s.jobClaims := by
  cases a with
  | savePlan lease' snapshot policy | retry lease' code =>
    cases hlease
    simp only [step] at hstep
    split at hstep
    · assumption
    cases hstep
  | _ => cases hlease

theorem applicationLease_mem {lease : RetentionApplication}
    (hstep : step config s a = some t) (hlease : a.applicationLease = some lease) :
    lease ∈ s.applicationClaims := by
  cases a with
  | completeApplication lease' =>
    cases hlease
    simp only [step] at hstep
    split at hstep
    · cases hstep
    split at hstep
    · rename_i hmay
      exact hmay.1
    cases hstep
  | retryApplication lease' code =>
    cases hlease
    simp only [step] at hstep
    split at hstep
    · assumption
    cases hstep
  | _ => cases hlease

theorem jobs_fenced (h : LeaseInvariant s) (hstep : step config s a = some t) :
    JobsFenced s a t := by
  intro id job token expires hjob hstage hne
  have hrow := jobs_step h.below hstep id
  rw [hjob] at hrow
  generalize hafter : t.jobs id = after at hrow hne
  cases hrow with
  | changed _ row hchange =>
    have hrowNe : row ≠ job.row := by
      rintro rfl
      exact hne rfl
    rcases hchange.leased hstage hrowNe with ⟨hcaller, hlive⟩ | ⟨hcaller, hexp⟩
    · obtain ⟨lease, hlease, hid, htoken⟩ := jobCaller_lease hcaller
      have hmem := jobLease_mem hstep hlease
      refine .inl ⟨lease, hmem, hlease, hid, htoken, hlive, ?_⟩
      intro other hother hsame
      exact inj_on_of_nodup_map h.jobTokensNodup hother hmem (hsame.trans htoken.symm)
    exact .inr ⟨jobCaller_claim hcaller, hexp⟩

theorem applications_fenced (h : LeaseInvariant s)
    (hstep : step config s a = some t) : ApplicationsFenced s a t := by
  intro id row token expires hrow hstage hne
  have hchange := applications_step hstep id
  rw [hrow] at hchange
  generalize hafter : t.applications id = after at hchange hne
  cases hchange with
  | changed _ next hchange =>
    have hrowNe : next ≠ row := by
      rintro rfl
      exact hne rfl
    rcases hchange.leased hstage hrowNe with ⟨hcaller, hlive⟩ | ⟨hcaller, hexp⟩
    · obtain ⟨lease, hlease, hid, htoken⟩ := applicationCaller_lease hcaller
      have hmem := applicationLease_mem hstep hlease
      refine .inl ⟨lease, hmem, hlease, hid, htoken, hlive, ?_⟩
      intro other hother hsame
      exact inj_on_of_nodup_map h.applicationTokensNodup hother hmem (hsame.trans htoken.symm)
    exact .inr ⟨applicationCaller_claim hcaller, hexp⟩

/-- Every ended row of `s` is the same row in `t`, with its plan. -/
structure KeepsEnded (s t : RetentionState) : Prop where
  jobs : ∀ id job, s.jobs id = some job → job.row.stage.terminal = true → t.jobs id = some job
  applications : ∀ id row, s.applications id = some row → row.stage.terminal = true →
    t.applications id = some row

variable {row : Row Unit ApplyFailure}

theorem application_kept (hstep : step config s a = some t) (hrow : s.applications id = some row)
    (hended : row.stage.terminal = true) : t.applications id = some row := by
  have hchange := applications_step hstep id
  rw [hrow] at hchange
  generalize hafter : t.applications id = after at hchange
  cases hchange with
  | changed _ next hchange => rw [hchange.terminal hended]

theorem keepsEnded_of_path (hs : LeaseInvariant s)
    (path : (machine config).Path Machine.unrestricted s t) : KeepsEnded s t := by
  refine path.relates LeaseInvariant KeepsEnded ?_ ?_ ?_ ?_ hs
  · exact fun s => ⟨fun _ _ hjob _ => hjob, fun _ _ hrow _ => hrow⟩
  · intro s t u hst htu
    exact ⟨fun id job hjob hended => htu.jobs id job (hst.jobs id job hjob hended) hended,
      fun id row hrow hended =>
        htu.applications id row (hst.applications id row hrow hended) hended⟩
  · exact fun s a t _ h hstep => leaseInvariant_step h hstep
  intro s a t _ h hstep
  exact ⟨fun id job hjob hended => job_kept h.below hstep hjob hended,
    fun id row hrow hended => application_kept hstep hrow hended⟩

def ClockAdvances (run : (machine config).Run) : Prop :=
  ∀ T, ∃ n, T ≤ (run.state n).now

/-- The job is under the predicate of one of the statements of `Claim`. -/
def JobOpen (config : Config) (s : RetentionState) (id : Nat) : Prop :=
  ∃ job, s.jobs id = some job ∧
    (jobClaimable config s job = true ∨ jobExhausted config s job = true)

def JobEnded (s : RetentionState) (id : Nat) : Prop :=
  ∃ job, s.jobs id = some job ∧ job.row.stage.terminal = true

theorem now_mono (run : (machine config).Run) {n k : ℕ} (hnk : n ≤ k) :
    (run.state n).now ≤ (run.state k).now := by
  induction k, hnk using Nat.le_induction with
  | base => exact le_rfl
  | succ k hk ih => exact ih.trans (step_advances (run.next k)).now

theorem eventually_past {run : (machine config).Run} (hclock : ClockAdvances run) (n T : ℕ) :
    ∃ k, n ≤ k ∧ T ≤ (run.state k).now := by
  obtain ⟨k, hk⟩ := hclock (max T ((run.state n).now + 1))
  refine ⟨k, ?_, (le_max_left _ _).trans hk⟩
  by_contra hlt
  have hmono := now_mono run (not_le.mp hlt).le
  have hlate := (le_max_right _ _).trans hk
  omega

def jobWork (id : Nat) (s : RetentionState) : ℕ :=
  match s.jobs id with
  | none => 0
  | some job => job.row.work retentionMaxAttempts

theorem job_still_or_less (hbelow : JobsBelow s) (hstep : step config s a = some t) (hjob : (s.jobs id).isSome) :
    (t.jobs id).isSome ∧ (t.jobs id = s.jobs id ∧ jobWork id t ≤ jobWork id s ∨
      jobWork id t < jobWork id s) := by
  have hrow := jobs_step hbelow hstep id
  unfold jobWork
  generalize s.jobs id = before at hrow hjob
  generalize t.jobs id = after at hrow
  cases hrow with
  | absent | inserted groupID hid hnext => cases hjob
  | changed job row hchange =>
    refine ⟨rfl, ?_⟩
    by_cases hsame : row = job.row
    · left
      exact ⟨by rw [hsame], hchange.work_le⟩
    exact .inr (hchange.work_lt hsame)

variable {job : Job}

/-- As time passes, a job whose group stays eligible ends or comes under a
claim's predicate. -/
theorem job_opens (run : (machine config).Run) (hclock : ClockAdvances run) {n : ℕ} (hjob : (run.state n).jobs id = some job)
    (heligible : ∀ k, n ≤ k → eligible config (run.state k) job.groupID = true) :
    ∃ k, n ≤ k ∧ (JobOpen config (run.state k) id ∨ JobEnded (run.state k) id) := by
  have hinv : ∀ k, LeaseInvariant (run.state k) :=
    fun k => leaseInvariant_reachable (run.reachable k)
  have hpresent : ∀ k, n ≤ k →
      ∃ later, (run.state k).jobs id = some later ∧ later.groupID = job.groupID := by
    intro k hk
    induction k, hk using Nat.le_induction with
    | base => exact ⟨job, hjob, rfl⟩
    | succ k hk ih =>
      obtain ⟨later, hlater, hgroup⟩ := ih
      have hrow := jobs_step (hinv k).below (run.next k) id
      rw [hlater] at hrow
      generalize (run.state (k + 1)).jobs id = after at hrow
      cases hrow with
      | changed _ row _ => exact ⟨_, rfl, hgroup⟩
  obtain ⟨N, hN, hstill⟩ := run.eventually_still (fun s => s.jobs id) (jobWork id) n (by
    intro k hk
    obtain ⟨later, hlater, _⟩ := hpresent k hk
    exact (job_still_or_less (hinv k).below (run.next k) (by simp [hlater])).2)
  obtain ⟨final, hfinal, hgroup⟩ := hpresent N hN
  by_cases hended : final.row.stage.terminal = true
  · exact ⟨N, hN, .inr ⟨final, hfinal, hended⟩⟩
  obtain ⟨k, hk, hdue⟩ := eventually_past hclock N final.row.due
  have hlate : (run.state k).jobs id = some final := (hstill k hk).trans hfinal
  refine ⟨k, hN.trans hk, .inl ⟨final, hlate, ?_⟩⟩
  have helig := heligible k (hN.trans hk)
  rw [← hgroup] at helig
  have hscope : config.inScope final.groupID = true := by
    simp only [eligible, and_eq_true] at helig
    exact helig.2
  rcases Row.claimable_or_exhausted ((hinv k).jobBounded id final hlate)
    (by simpa using hended) hdue with hable | hexh
  · exact .inl (by simp [jobClaimable, helig, hable])
  exact .inr (by simp [jobExhausted, hscope, hexh])

/-- Workers keep claiming: again and again the statements of `ClaimApplication`
run without another transaction's locks in the way. -/
structure ClaimsKeepRunning (run : (machine config).Run) : Prop where
  clock : ClockAdvances run
  sweeps : ∀ n, ∃ k, n ≤ k ∧ run.action k = .exhaustApplications
  claims : ∀ n, ∃ k, n ≤ k ∧ run.action k = .claimApplication []

def ApplicationEnded (s : RetentionState) (id : Nat) : Prop :=
  ∃ row, s.applications id = some row ∧ row.stage.terminal = true

/-- An application that is not inserted yet has more work left than a fresh one. -/
def applicationWork (s : RetentionState) (id : Nat) : ℕ :=
  match s.applications id with
  | none => 3 * retentionMaxAttempts + 2
  | some row => row.work retentionMaxAttempts

def workThrough (last : Nat) (s : RetentionState) : ℕ :=
  ∑ id ∈ Finset.range (last + 1), applicationWork s id

def applicationsThrough (last : Nat) (s : RetentionState) (id : Nat) :
    Option (Row Unit ApplyFailure) :=
  if id ≤ last then s.applications id else none

theorem application_still_or_less (hstep : step config s a = some t) (id : Nat) :
    t.applications id = s.applications id ∧ applicationWork t id ≤ applicationWork s id ∨
      applicationWork t id < applicationWork s id := by
  have hchange := applications_step hstep id
  unfold applicationWork
  generalize s.applications id = before at hchange
  generalize t.applications id = after at hchange
  cases hchange with
  | absent => exact .inl ⟨rfl, le_rfl⟩
  | inserted hplanned =>
    refine .inr ?_
    change 3 * (retentionMaxAttempts - 0) + 1 < 3 * retentionMaxAttempts + 2
    omega
  | changed row next hchange =>
    by_cases hsame : next = row
    · exact .inl ⟨by rw [hsame], hchange.work_le⟩
    exact .inr (hchange.work_lt hsame)

theorem applications_still_or_less (hstep : step config s a = some t) (last : Nat) :
    applicationsThrough last t = applicationsThrough last s ∧
        workThrough last t ≤ workThrough last s ∨ workThrough last t < workThrough last s := by
  have hle : ∀ id ∈ Finset.range (last + 1), applicationWork t id ≤ applicationWork s id := by
    intro id _
    rcases application_still_or_less hstep id with ⟨_, hle⟩ | hlt
    · exact hle
    exact hlt.le
  by_cases hsame : ∀ id, id ≤ last → t.applications id = s.applications id
  · refine .inl ⟨?_, Finset.sum_le_sum hle⟩
    funext id
    unfold applicationsThrough
    split
    · rename_i hid
      exact hsame id hid
    rfl
  push Not at hsame
  obtain ⟨id, hid, hne⟩ := hsame
  refine .inr (Finset.sum_lt_sum hle ⟨id, Finset.mem_range.mpr (by omega), ?_⟩)
  rcases application_still_or_less hstep id with ⟨heq, _⟩ | hlt
  · exact absurd heq hne
  exact hlt

theorem pickApplication_le (hid : id < s.nextJob)
    (hable : applicationClaimable config s id = true) :
    ∃ least, least ≤ id ∧ pickApplication config s [] = some least := by
  have hsome : (pickApplication config s []).isSome := by
    unfold pickApplication
    rw [find?_isSome]
    exact ⟨id, mem_range.mpr hid, by simp [hable]⟩
  obtain ⟨least, hleast⟩ := isSome_iff_exists.mp hsome
  refine ⟨least, ?_, hleast⟩
  obtain ⟨_, _, hfirst⟩ := find?_range_eq_some.mp hleast
  by_contra hlt
  have := hfirst id (not_le.mp hlt)
  simp [hable] at this

/-- An uncontended claim changes an application at or below any claimable one. -/
theorem claimApplication_changes (hid : id < s.nextJob)
    (hable : applicationClaimable config s id = true) : ∃ least, least ≤ id ∧
      (claimApplication config s []).applications least ≠ s.applications least := by
  obtain ⟨least, hle, hpick⟩ := pickApplication_le hid hable
  obtain ⟨job, row, hjob, hrow, _⟩ :=
    applicationClaimable_iff.mp (pickApplication_eq_some hpick).2
  refine ⟨least, hle, ?_⟩
  have hafter : (claimApplication config s []).applications least =
      some (row.claim s.now retentionLeaseTTL s.nextToken) := by
    unfold claimApplication
    simp only [hpick, hjob, hrow]
    cases planned s least <;> simp [withApplication]
  rw [hafter, hrow]
  intro heq
  have hattempts := congrArg Row.attempts (some.inj heq)
  simp [Row.claim] at hattempts

theorem exhaustApplications_changes
    (hjob : s.jobs id = some job) (hscope : config.inScope job.groupID = true)
    (hrow : s.applications id = some row)
    (hexh : row.exhausted retentionMaxAttempts s.now = true) :
    (exhaustApplications config s).applications id ≠ s.applications id := by
  have hafter : (exhaustApplications config s).applications id =
      some (row.exhaust .attemptsExhausted) := by
    simp [exhaustApplications, applicationExhausted, hjob, hscope, hrow, hexh]
  rw [hafter, hrow]
  intro heq
  obtain ⟨_, _, hstage, _⟩ := Row.exhausted_iff.mp hexh
  have hblocked := congrArg Row.stage (some.inj heq)
  simp [Row.exhaust, hstage] at hblocked

/-- The group's first application that has not ended, once all of them are
still. -/
structure Head (s : RetentionState) (groupID : GroupID) (id : Nat)
    (row : Row Unit ApplyFailure) (job : Job) : Prop where
  application : s.applications id = some row
  unended : row.stage.terminal = false
  stored : s.jobs id = some job
  group : job.groupID = groupID
  jobEnded : job.row.stage.terminal = true
  first : ∀ earlier, earlier < id → ∀ row' job', s.applications earlier = some row' →
    s.jobs earlier = some job' → job'.groupID = groupID → row'.stage.terminal = true

theorem exists_job_of_application (h : LeaseInvariant s) (hrow : s.applications id = some row) :
    ∃ job, s.jobs id = some job ∧ job.row.stage.terminal = true := by
  obtain ⟨saved, hsaved⟩ := isSome_iff_exists.mp (h.applicationPlanned id (by simp [hrow]))
  obtain ⟨job, hjob, hstage⟩ := planned_eq_some.mp hsaved
  exact ⟨job, hjob, by rw [hstage]; rfl⟩

theorem exists_head (h : LeaseInvariant s)
    (hrow : s.applications id = some row) (hopen : row.stage.terminal = false)
    (hjob : s.jobs id = some job) :
    ∃ head row' job', head ≤ id ∧ Head s job.groupID head row' job' := by
  induction id using Nat.strong_induction_on generalizing row job with
  | _ id ih =>
    by_cases hfirst : ∀ earlier, earlier < id → ∀ row' job',
        s.applications earlier = some row' → s.jobs earlier = some job' →
        job'.groupID = job.groupID → row'.stage.terminal = true
    · obtain ⟨job', hjob', hplanned⟩ := exists_job_of_application h hrow
      cases hjob.symm.trans hjob'
      exact ⟨id, row, job, le_rfl, hrow, hopen, hjob, rfl, hplanned, hfirst⟩
    push Not at hfirst
    obtain ⟨earlier, hlt, row', job', hrow', hjob', hgroup, hopen'⟩ := hfirst
    obtain ⟨head, row'', job'', hle, hhead⟩ := ih earlier hlt hrow' (by simpa using hopen') hjob'
    rw [hgroup] at hhead
    exact ⟨head, row'', job'', hle.trans hlt.le, hhead⟩

theorem Head.claimable {groupID : GroupID}
    (hhead : Head s groupID id row job) (heligible : eligible config s groupID = true)
    (hable : row.claimable retentionMaxAttempts s.now = true) :
    applicationClaimable config s id = true := by
  refine applicationClaimable_iff.mpr ⟨job, row, hhead.stored, hhead.application, ?_, ?_, hable⟩
  · rw [hhead.group]
    exact heligible
  unfold waitsForEarlier
  rw [List.any_eq_false]
  intro earlier hearlier hwaits
  simp only [and_eq_true, Option.any_eq_true, decide_eq_true_eq, not_eq_true'] at hwaits
  obtain ⟨⟨job', hjob', hgroup⟩, row', hrow', hopen⟩ := hwaits
  rw [hhead.group] at hgroup
  have := hhead.first earlier (mem_range.mp hearlier) row' job' hrow' hjob' hgroup
  rw [hopen] at this
  cases this

section Ending

variable {run : (machine config).Run} {n : ℕ} {last : Nat}

variable {id : Nat} {row : Row Unit ApplyFailure}

/-- A head that stays still from `n` on comes due, and then a sweep or a claim
changes it or an application before it. -/
theorem head_not_still (hfair : ClaimsKeepRunning run) {groupID : GroupID} {job : Job} (hid : id ≤ last)
    (hhead : ∀ k, n ≤ k → Head (run.state k) groupID id row job)
    (heligible : ∀ k, n ≤ k → eligible config (run.state k) groupID = true) (hstill : ∀ k, n ≤ k →
      applicationsThrough last (run.state k) = applicationsThrough last (run.state n)) : False := by
  have hsame : ∀ k, n ≤ k → ∀ i, i ≤ last →
      (run.state (k + 1)).applications i = (run.state k).applications i := by
    intro k hk i hi
    have heq := (hstill (k + 1) (hk.trans k.le_succ)).trans (hstill k hk).symm
    have hi' := congrFun heq i
    simpa only [applicationsThrough, if_pos hi] using hi'
  have hbounded : ∀ k, n ≤ k → row.Bounded retentionMaxAttempts := fun k hk =>
    (leaseInvariant_reachable (run.reachable k)).applicationBounded id row (hhead k hk).application
  obtain ⟨due, hdue, hpast⟩ := eventually_past hfair.clock n row.due
  obtain ⟨sweep, hsweep, hsweepAction⟩ := hfair.sweeps due
  obtain ⟨turn, hturn, hturnAction⟩ := hfair.claims sweep
  have hreadyAt : ∀ k, due ≤ k → row.claimable retentionMaxAttempts (run.state k).now = true ∨
      row.exhausted retentionMaxAttempts (run.state k).now = true := fun k hk =>
    Row.claimable_or_exhausted (hbounded k (hdue.trans hk)) (hhead k (hdue.trans hk)).unended
      (hpast.trans (now_mono run hk))
  have hn : n ≤ sweep := hdue.trans hsweep
  have hspare : row.attempts < retentionMaxAttempts := by
    rcases hreadyAt sweep hsweep with hable | hexh
    · exact (Row.claimable_iff.mp hable).1
    exfalso
    have hsweepHead := hhead sweep hn
    have hscope : config.inScope job.groupID = true := by
      have := heligible sweep hn
      rw [← hsweepHead.group] at this
      simp only [eligible, and_eq_true] at this
      exact this.2
    have hnext := run.next sweep
    rw [hsweepAction] at hnext
    have hstate : exhaustApplications config (run.state sweep) = run.state (sweep + 1) :=
      some.inj hnext
    apply exhaustApplications_changes hsweepHead.stored hscope hsweepHead.application hexh
    rw [hstate]
    exact hsame sweep hn id hid
  have hnTurn : n ≤ turn := hn.trans hturn
  have hable : row.claimable retentionMaxAttempts (run.state turn).now = true := by
    rcases hreadyAt turn (hsweep.trans hturn) with hable | hexh
    · exact hable
    obtain ⟨_, _, _, _, hspent⟩ := Row.exhausted_iff.mp hexh
    omega
  have hbelow := (leaseInvariant_reachable (run.reachable turn)).below id
    (by simp [(hhead turn hnTurn).stored])
  obtain ⟨least, hleast, hchanges⟩ := claimApplication_changes hbelow
    ((hhead turn hnTurn).claimable (heligible turn hnTurn) hable)
  have hnext := run.next turn
  rw [hturnAction] at hnext
  have hstate : claimApplication config (run.state turn) [] = run.state (turn + 1) :=
    some.inj hnext
  apply hchanges
  rw [hstate]
  exact hsame turn hnTurn least (hleast.trans hid)

theorem application_present (hrow : (run.state n).applications id = some row) {k : ℕ} (hk : n ≤ k) :
    ((run.state k).applications id).isSome := by
  induction k, hk using Nat.le_induction with
  | base => simp [hrow]
  | succ k hk ih =>
    have hchange := applications_step (run.next k) id
    generalize (run.state k).applications id = before at hchange ih
    generalize (run.state (k + 1)).applications id = after at hchange
    cases hchange with
    | absent => cases ih
    | inserted hplanned | changed row next _ => rfl

theorem keepsEnded_run {k j : ℕ} (hkj : k ≤ j) : KeepsEnded (run.state k) (run.state j) := by
  have hpath := run.path k (j - k)
  rw [Nat.add_sub_cancel' hkj] at hpath
  exact keepsEnded_of_path (leaseInvariant_reachable (run.reachable k)) hpath

/-- While claims keep running, every application of a group that stays eligible
ends. -/
theorem application_ends (hfair : ClaimsKeepRunning run) {job : Job} (hrow : (run.state n).applications id = some row)
    (hjob : (run.state n).jobs id = some job)
    (heligible : ∀ k, n ≤ k → eligible config (run.state k) job.groupID = true) :
    ∃ k, n ≤ k ∧ ApplicationEnded (run.state k) id := by
  have hinv : ∀ k, LeaseInvariant (run.state k) :=
    fun k => leaseInvariant_reachable (run.reachable k)
  have hmeasure : ∀ k, n ≤ k → applicationsThrough id (run.state (k + 1)) =
        applicationsThrough id (run.state k) ∧
        workThrough id (run.state (k + 1)) ≤ workThrough id (run.state k) ∨
      workThrough id (run.state (k + 1)) < workThrough id (run.state k) :=
    fun k _ => applications_still_or_less (run.next k) id
  obtain ⟨N, hN, hstill⟩ := run.eventually_still (applicationsThrough id) (workThrough id) n hmeasure
  obtain ⟨final, hfinal⟩ := isSome_iff_exists.mp (application_present hrow hN)
  by_contra hnever
  push Not at hnever
  have hopen : final.stage.terminal = false := by
    by_contra hended
    exact hnever N hN ⟨final, hfinal, by simpa using hended⟩
  obtain ⟨job', hjob', hplanned⟩ := exists_job_of_application (hinv n) hrow
  cases hjob.symm.trans hjob'
  have hjobN : (run.state N).jobs id = some job := (keepsEnded_run hN).jobs id job hjob hplanned
  obtain ⟨head, headRow, headJob, hheadLe, hhead⟩ := exists_head (hinv N) hfinal hopen hjobN
  have hheads : ∀ k, N ≤ k → Head (run.state k) job.groupID head headRow headJob := by
    intro k hk
    have hsame : ∀ i, i ≤ id → (run.state k).applications i = (run.state N).applications i := by
      intro i hi
      have := congrFun (hstill k hk) i
      simpa only [applicationsThrough, if_pos hi] using this
    refine ⟨(hsame head hheadLe).trans hhead.application, hhead.unended,
      (keepsEnded_run hk).jobs head headJob hhead.stored hhead.jobEnded, hhead.group,
      hhead.jobEnded, ?_⟩
    intro earlier hearlier row' later hrow' hlater hgroup
    rw [hsame earlier (hearlier.le.trans hheadLe)] at hrow'
    obtain ⟨earlierJob, hearlierJob, hearlierPlanned⟩ :=
      exists_job_of_application (hinv N) hrow'
    have hkept := (keepsEnded_run hk).jobs earlier earlierJob hearlierJob hearlierPlanned
    obtain rfl := some.inj (hkept.symm.trans hlater)
    exact hhead.first earlier hearlier row' earlierJob hrow' hearlierJob hgroup
  exact head_not_still hfair hheadLe hheads (fun k hk => heligible k (hN.trans hk)) hstill

end Ending

/-- The application is under the predicate of one of the statements of
`ClaimApplication`. -/
def ApplicationOpen (config : Config) (s : RetentionState) (id : Nat) : Prop :=
  applicationClaimable config s id = true ∨
    ∃ row, s.applications id = some row ∧ applicationExhausted config s id row = true

theorem jobOpen_of_change
    (hbelow : JobsBelow s) (hstep : step config s a = some t) (hjob : s.jobs id = some job)
    (hwait : job.row.stage = .queued ∨ job.row.stage = .retry)
    (hne : t.jobs id ≠ some job) : JobOpen config s id := by
  have hrow := jobs_step hbelow hstep id
  rw [hjob] at hrow
  have hcaller : a.jobCaller id = .claim := by
    generalize t.jobs id = after at hrow hne
    cases hrow with
    | changed _ row hchange =>
      refine hchange.waiting hwait ?_
      rintro rfl
      exact hne rfl
  cases effect_of_step hstep with
  | idle => exact absurd hjob hne
  | jobsExhausted =>
    refine ⟨job, hjob, .inr ?_⟩
    by_contra hlive
    apply hne
    simp [exhaustJobs, hjob, hlive]
  | @claimed locked target taken htaken hable =>
    by_cases hid : id = target
    · subst hid
      exact ⟨taken, htaken, .inl hable⟩
    simp only [withJobRow, update_of_ne hid] at hne
    exact absurd hjob hne
  | planSaved | retried =>
    simp only [Action.jobCaller] at hcaller
    split at hcaller <;> cases hcaller
  | _ => cases hcaller

theorem applicationOpen_of_change
    (hstep : step config s a = some t) (hrow : s.applications id = some row)
    (hwait : row.stage = .queued ∨ row.stage = .retry)
    (hne : t.applications id ≠ some row) : ApplicationOpen config s id := by
  have hchange := applications_step hstep id
  rw [hrow] at hchange
  have hcaller : a.applicationCaller id = .claim := by
    generalize t.applications id = after at hchange hne
    cases hchange with
    | changed _ next hchange =>
      refine hchange.waiting hwait ?_
      rintro rfl
      exact hne rfl
  cases effect_of_step hstep with
  | idle => exact absurd hrow hne
  | applicationsExhausted =>
    refine .inr ⟨row, hrow, ?_⟩
    by_contra hlive
    apply hne
    simp [exhaustApplications, hrow, hlive]
  | @applicationClaimed locked target _ _ _ _ hable =>
    by_cases hid : id = target
    · subst hid
      exact .inl hable
    simp only [withApplication, update_of_ne hid] at hne
    exact absurd hrow hne
  | completed | published | applicationRetried =>
    simp only [Action.applicationCaller] at hcaller
    split at hcaller <;> cases hcaller
  | _ => cases hcaller

theorem exists_last_step {run : (machine config).Run} (kept : RetentionState → Prop) {n k : ℕ}
    (hnk : n ≤ k) (hn : kept (run.state n)) (hk : ¬ kept (run.state k)) :
    ∃ j, n ≤ j ∧ kept (run.state j) ∧ ¬ kept (run.state (j + 1)) := by
  by_contra hnone
  push Not at hnone
  apply hk
  induction k, hnk using Nat.le_induction with
  | base => exact hn
  | succ k hle ih =>
    by_cases hkept : kept (run.state k)
    · exact hnone k hle hkept
    exact absurd (ih hkept) hkept

/-- A job that has not ended comes under a claim's predicate, unless the holder of
its lease ends it. -/
def JobProgress (config : Config) (run : (machine config).Run) : Prop :=
  ∀ n id job, (run.state n).jobs id = some job → job.row.stage.terminal = false →
    (∀ k, n ≤ k → eligible config (run.state k) job.groupID = true) →
    ∃ k, n ≤ k ∧ (JobOpen config (run.state k) id ∨
      (∃ token expires, job.row.stage = .leased token expires) ∧ JobEnded (run.state k) id)

/-- The same for an application, which moreover ends. -/
def ApplicationProgress (config : Config) (run : (machine config).Run) : Prop :=
  ∀ n id row job, (run.state n).applications id = some row → row.stage.terminal = false →
    (run.state n).jobs id = some job →
    (∀ k, n ≤ k → eligible config (run.state k) job.groupID = true) →
    (∃ k, n ≤ k ∧ ApplicationEnded (run.state k) id) ∧
    ∃ k, n ≤ k ∧ (ApplicationOpen config (run.state k) id ∨
      (∃ token expires, row.stage = .leased token expires) ∧ ApplicationEnded (run.state k) id)

theorem jobs_progress (run : (machine config).Run) (hclock : ClockAdvances run) :
    JobProgress config run := by
  intro n id job hjob hopen heligible
  obtain ⟨k, hk, hjobOpen | hended⟩ := job_opens run hclock hjob heligible
  · exact ⟨k, hk, .inl hjobOpen⟩
  rcases Row.waiting_or_leased hopen with hwait | hleased
  · have hlost : ¬ (run.state k).jobs id = some job := by
      intro hkept
      obtain ⟨later, hlater, hterm⟩ := hended
      cases hkept.symm.trans hlater
      rw [hopen] at hterm
      cases hterm
    obtain ⟨j, hj, hkept, hnext⟩ :=
      exists_last_step (fun s => s.jobs id = some job) hk hjob hlost
    exact ⟨j, hj, .inl (jobOpen_of_change (leaseInvariant_reachable (run.reachable j)).below
      (run.next j) hkept hwait hnext)⟩
  exact ⟨k, hk, .inr ⟨hleased, hended⟩⟩

theorem applications_progress (run : (machine config).Run) (hfair : ClaimsKeepRunning run) :
    ApplicationProgress config run := by
  intro n id row job hrow hopen hjob heligible
  obtain ⟨k, hk, hended⟩ := application_ends hfair hrow hjob heligible
  refine ⟨⟨k, hk, hended⟩, ?_⟩
  rcases Row.waiting_or_leased hopen with hwait | hleased
  · have hlost : ¬ (run.state k).applications id = some row := by
      intro hkept
      obtain ⟨later, hlater, hterm⟩ := hended
      cases hkept.symm.trans hlater
      rw [hopen] at hterm
      cases hterm
    obtain ⟨j, hj, hkept, hnext⟩ :=
      exists_last_step (fun s => s.applications id = some row) hk hrow hlost
    exact ⟨j, hj, .inl (applicationOpen_of_change (run.next j) hkept hwait hnext)⟩
  exact ⟨k, hk, .inr ⟨hleased, hended⟩⟩

structure AttemptsBounded (s : RetentionState) : Prop where
  jobs : ∀ id job, s.jobs id = some job → job.row.attempts ≤ retentionMaxAttempts
  applications : ∀ id row, s.applications id = some row → row.attempts ≤ retentionMaxAttempts

/-- Claims over an empty store, one second apart. -/
def idleRun : (machine ⟨[], fun _ => 0⟩).Run where
  state n := idleState ((n + 2) / 3)
  action n := match n % 3 with
    | 0 => .tick 1
    | 1 => .exhaustApplications
    | _ => .claimApplication []
  start := idleState_initial _
  next n := by
    have hcases : n % 3 = 0 ∨ n % 3 = 1 ∨ n % 3 = 2 := by omega
    rcases hcases with hphase | hphase | hphase
    · have htime : (n + 1 + 2) / 3 = (n + 2) / 3 + 1 := by omega
      rw [hphase, htime]
      rfl
    · have htime : (n + 1 + 2) / 3 = (n + 2) / 3 := by omega
      rw [hphase, htime]
      rfl
    have htime : (n + 1 + 2) / 3 = (n + 2) / 3 := by omega
    rw [hphase, htime]
    rfl

theorem idleRun_fair : ClaimsKeepRunning idleRun where
  clock T := ⟨3 * T, by
    change T ≤ (3 * T + 2) / 3
    omega⟩
  sweeps n := by
    refine ⟨3 * n + 1, by omega, ?_⟩
    have hphase : (3 * n + 1) % 3 = 1 := by omega
    simp only [idleRun, hphase]
  claims n := by
    refine ⟨3 * n + 2, by omega, ?_⟩
    have hphase : (3 * n + 2) % 3 = 2 := by omega
    simp only [idleRun, hphase]

end ImApp.RetentionJobs
