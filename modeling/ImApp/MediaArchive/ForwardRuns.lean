import ImApp.MediaArchive.ForwardTasks

/-!
What holds of a forward task and of the copies in every run. A task is updated
only while it holds the snapshot that was copied, and a copy is inserted only where
there is none.
-/

namespace ImApp.MediaArchive

open ArchivedItem InterleavedCalls StepSystem List Option Function Service

variable {Key Snapshot : Type}
  {s : ForwardMediaService Key Snapshot} {id other : Nat} {d d' : ForwardData Key Snapshot}
  {call : ForwardCall Snapshot} {next : Option (ForwardCall Snapshot)}
  {choice : ForwardChoice Snapshot} {key : Key} {copy : Snapshot}
  {t u : State (ForwardData Key Snapshot) (ForwardCall Snapshot)}

/-- A task that was read before it was archived. -/
def OpenTask (d : ForwardData Key Snapshot) (task : ForwardTask Snapshot) : Prop :=
  task.archived = false ∧ ∃ row, d.task = some row ∧ row.base = task.base

def Origin.sound (d : ForwardData Key Snapshot) : Origin Snapshot → Prop
  | .direct => True
  | .task before => OpenTask d before

/-- What a call has established. -/
def CallStands (s : ForwardMediaService Key Snapshot) (d : ForwardData Key Snapshot) (id : Nat) :
    ForwardCall Snapshot → Prop
  | .fetching origin _ | .copying origin _ | .saving origin _ _ | .refetching origin _ =>
    origin.sound d
  | .committing origin source result =>
    origin.sound d ∧ d.seesCopy id (s.sourceHash source) = some result
  | .archiving task _ | .rereading task => OpenTask d task
  | _ => True

/-- The call may have inserted a copy that is not committed. -/
def ForwardCall.inTransaction : ForwardCall Snapshot → Bool
  | .refetching _ _ | .committing _ _ _ => true
  | _ => false

/-- The call has the transaction that inserted this copy. -/
def Owns (s : ForwardMediaService Key Snapshot) (key : Key) (copy : Snapshot)
    (call : ForwardCall Snapshot) : Prop :=
  ∃ origin source, s.sourceHash source = key ∧
    (call = .refetching origin source ∨ call = .committing origin source copy)

structure ForwardSound (s : ForwardMediaService Key Snapshot)
    (t : State (ForwardData Key Snapshot) (ForwardCall Snapshot)) : Prop where
  pending : ∀ key id copy, t.data.pending key = some (id, copy) →
    s.guarded = true ∧ t.data.copies key = none ∧ ∃ call, t.calls id = some call ∧ Owns s key copy call
  ensured : ∀ answer ∈ t.data.ensured, t.data.task = some answer.2 ∧ answer.2.archived = true
  reads : ∀ read ∈ t.data.reads, ∃ later, t.data.task = some later ∧ read.2.Advances later
  preserved : ∀ kept ∈ t.data.preserved, t.data.copies kept.1 = some kept.2
  calls : ∀ id call, t.calls id = some call → CallStands s t.data id call

theorem CallStands.changed (h : CallStands s d other call) (htask : RowAdvances d.task d'.task)
    (hcopies : ∀ key copy, d.seesCopy other key = some copy → d'.seesCopy other key = some copy) :
    CallStands s d' other call := by
  have hopen : ∀ task, OpenTask d task → OpenTask d' task := by
    rintro task ⟨harch, row, hrow, hbase⟩
    obtain ⟨later, hlater, hadvances⟩ := htask row hrow
    exact ⟨harch, later, hlater, hadvances.base.trans hbase⟩
  have horigin : ∀ origin : Origin Snapshot, origin.sound d → origin.sound d' := by
    intro origin hsound
    cases origin with
    | direct => trivial
    | task task => exact hopen task hsound
  cases call with
  | fetching origin source | copying origin source | saving origin source content
  | refetching origin source => exact horigin origin h
  | committing origin source result => exact ⟨horigin origin h.1, hcopies _ _ h.2⟩
  | archiving task snapshot | rereading task => exact hopen task h
  | create _ _ | loading _ | get | preserve _ | finishing => trivial

theorem Owns.inTransaction (h : Owns s key copy call) : call.inTransaction = true := by
  obtain ⟨origin, source, _, rfl | rfl⟩ := h <;> rfl

section

variable (h : ForwardSound s t)
include h

theorem ForwardSound.noPending (hcall : t.calls id = some call)
    (hout : call.inTransaction = false) (key : Key) (copy : Snapshot) :
    t.data.pending key ≠ some (id, copy) := by
  intro hpend
  obtain ⟨_, _, owner, howner, howns⟩ := h.pending key id copy hpend
  rw [hcall] at howner
  cases howner
  rw [howns.inTransaction] at hout
  cases hout

theorem ForwardSound.othersPending (after : Option (ForwardCall Snapshot))
    {owner : Nat} (hpend : t.data.pending key = some (owner, copy)) (hne : owner ≠ id) :
    s.guarded = true ∧ t.data.copies key = none ∧
      ∃ call, setCall t.calls id after owner = some call ∧ Owns s key copy call := by
  obtain ⟨hguard, hnone, call, hcall, howns⟩ := h.pending key owner copy hpend
  exact ⟨hguard, hnone, call, (setCall_of_ne _ hne).trans hcall, howns⟩

theorem ForwardSound.outside (hcall : t.calls id = some call)
    (hout : call.inTransaction = false) {after : Option (ForwardCall Snapshot)}
    (hpend : d'.pending = t.data.pending) (hcopies : d'.copies = t.data.copies)
    (hpreserved : d'.preserved = t.data.preserved) (htask : RowAdvances t.data.task d'.task)
    (hensured : ∀ answer ∈ d'.ensured, d'.task = some answer.2 ∧ answer.2.archived = true)
    (hreads : ∀ read ∈ d'.reads, read ∈ t.data.reads ∨ d'.task = some read.2)
    (hnext : ∀ current, after = some current → CallStands s d' id current) :
    ForwardSound s ⟨d', setCall t.calls id after⟩ where
  pending := by
    intro key owner copy howner
    change d'.pending key = some (owner, copy) at howner
    rw [hpend] at howner
    have hne : owner ≠ id := by
      intro heq
      subst heq
      exact h.noPending hcall hout key copy howner
    change _ ∧ d'.copies key = none ∧ _
    rw [hcopies]
    exact h.othersPending _ howner hne
  ensured := hensured
  reads := by
    intro read hread
    rcases hreads read hread with hold | hnow
    · obtain ⟨middle, hmiddle, hfirst⟩ := h.reads read hold
      obtain ⟨later, hlater, hsecond⟩ := htask middle hmiddle
      exact ⟨later, hlater, hfirst.trans hsecond⟩
    exact ⟨read.2, hnow, Item.Advances.refl _⟩
  preserved := by
    intro kept hkept
    change kept ∈ d'.preserved at hkept
    rw [hpreserved] at hkept
    change d'.copies kept.1 = some kept.2
    rw [hcopies]
    exact h.preserved kept hkept
  calls := by
    intro other current hcur
    rcases setCall_some hcur with ⟨rfl, hsame⟩ | ⟨_, hkept⟩
    · exact hnext current hsame
    refine (h.calls other current hkept).changed htask ?_
    intro key copy hsees
    unfold ForwardData.seesCopy at hsees ⊢
    rw [hpend, hcopies]
    exact hsees

theorem ForwardSound.ensured_none
    (hopen : ∀ task, t.data.task = some task → task.archived = false) : t.data.ensured = [] := by
  apply eq_nil_iff_forall_not_mem.mpr
  intro answer hanswer
  obtain ⟨htask, harch⟩ := h.ensured answer hanswer
  rw [hopen answer.2 htask] at harch
  cases harch

end

variable {following : ForwardCall Snapshot}

theorem ForwardSound.moved (h : ForwardSound s t) (hcall : t.calls id = some call)
    (hout : call.inTransaction = false) (hstands : CallStands s t.data id following) :
    ForwardSound s ⟨t.data, setCall t.calls id (some following)⟩ := by
  apply h.outside hcall hout
  · rfl
  · rfl
  · rfl
  · exact RowAdvances.refl _
  · exact h.ensured
  · exact fun _ => .inl
  intro current hcur
  cases hcur
  exact hstands

variable {snapshot source : Snapshot}

theorem ForwardSound.created (h : ForwardSound s t) {base : TaskBase}
    (hcall : t.calls id = some (.create base snapshot)) (hnone : t.data.task = none) :
    ForwardSound s ⟨{ t.data with task := some ⟨base, snapshot, false⟩, draft := true },
      setCall t.calls id (some (.loading base))⟩ := by
  have hempty : t.data.ensured = [] := by
    apply h.ensured_none
    intro task htask
    rw [hnone] at htask
    cases htask
  apply h.outside hcall rfl
  · rfl
  · rfl
  · rfl
  · rw [hnone]
    exact RowAdvances.of_none _
  · intro answer hanswer
    change answer ∈ t.data.ensured at hanswer
    rw [hempty] at hanswer
    cases hanswer
  · exact fun _ => .inl
  intro current hcur
  cases hcur
  trivial

variable {task : ForwardTask Snapshot}

theorem ForwardSound.shown (h : ForwardSound s t) (hcall : t.calls id = some call)
    (hout : call.inTransaction = false) (htask : t.data.task = some task) :
    ForwardSound s ⟨t.data.read id task, setCall t.calls id none⟩ := by
  apply h.outside hcall hout
  · rfl
  · rfl
  · rfl
  · exact RowAdvances.refl _
  · exact h.ensured
  · intro read hread
    rcases mem_cons.mp hread with rfl | hold
    · exact .inr htask
    exact .inl hold
  intro current hcur
  cases hcur

theorem ForwardSound.found (h : ForwardSound s t) (hcall : t.calls id = some call)
    (hout : call.inTransaction = false)
    (htask : t.data.task = some task) (harch : task.archived = true) :
    ForwardSound s ⟨t.data.ensure id task, setCall t.calls id (some .finishing)⟩ := by
  apply h.outside hcall hout
  · rfl
  · rfl
  · rfl
  · exact RowAdvances.refl _
  · intro answer hanswer
    rcases mem_cons.mp hanswer with rfl | hold
    · exact ⟨htask, harch⟩
    exact h.ensured answer hold
  · exact fun _ => .inl
  intro current hcur
  cases hcur
  trivial

theorem reject_seesCopy (d : ForwardData Key Snapshot) (hne : other ≠ id) (key : Key) :
    (d.reject id).seesCopy other key = d.seesCopy other key := by
  unfold ForwardData.reject ForwardData.seesCopy
  cases hpend : d.pending key with
  | none => simp [hpend]
  | some owned =>
    obtain ⟨owner, copy⟩ := owned
    by_cases howner : owner = id
    · subst howner
      simp [hpend, Option.filter, hne.symm]
    simp [hpend, Option.filter, howner]

theorem reject_pending {owner : Nat} (h : (d.reject id).pending key = some (owner, copy)) :
    d.pending key = some (owner, copy) ∧ owner ≠ id := by
  obtain ⟨hpend, hne⟩ := filter_eq_some_iff.mp h
  exact ⟨hpend, of_decide_eq_true hne⟩

theorem ForwardSound.failed (h : ForwardSound s t) :
    ForwardSound s ⟨t.data.reject id, setCall t.calls id none⟩ := { h with
    pending := by
      intro key owner copy howner
      obtain ⟨hpend, hne⟩ := reject_pending howner
      exact h.othersPending _ hpend hne
    calls := by
      intro other current hcur
      rcases setCall_some hcur with ⟨_, hsame⟩ | ⟨hne, hkept⟩
      · cases hsame
      refine (h.calls other current hkept).changed (RowAdvances.refl _) ?_
      intro key copy hsees
      rw [reject_seesCopy _ hne]
      exact hsees }

theorem ensureTask_stands (hopen : OpenTask d task) (h : s.ensureTask task = some following) :
    CallStands s d id following := by
  unfold ForwardMediaService.ensureTask at h
  split at h
  · cases h
  split at h
  · cases h
    exact hopen
  split at h
  · cases h
    exact hopen
  cases h

theorem preserveDirect_stands
    (h : s.preserveDirect source = some following) : CallStands s d id following := by
  unfold ForwardMediaService.preserveDirect at h
  split at h
  · cases h
    trivial
  cases h

theorem ForwardSound.seesCopy (h : ForwardSound s t) (id : Nat)
    (hcopy : t.data.copies key = some copy) : t.data.seesCopy id key = some copy := by
  unfold ForwardData.seesCopy
  cases hpend : t.data.pending key with
  | none => exact hcopy
  | some owned =>
    obtain ⟨owner, pending⟩ := owned
    have hnone := (h.pending key owner pending hpend).2.1
    rw [hcopy] at hnone
    cases hnone

variable {origin : Origin Snapshot}

theorem ForwardSound.refetched (h : ForwardSound s t)
    (hcall : t.calls id = some (.refetching origin source))
    (hsees : t.data.seesCopy id (s.sourceHash source) = some copy) :
    ForwardSound s ⟨t.data, setCall t.calls id (some (.committing origin source copy))⟩ := { h with
    pending := by
      intro key owner pending howner
      by_cases hown : owner = id
      · subst hown
        obtain ⟨hguard, hnone, call, hcur, origin', source', hkey, hkind⟩ :=
          h.pending key owner pending howner
        refine ⟨hguard, hnone, _, setCall_self _ _ _, origin, source, ?_⟩
        rw [hcall] at hcur
        cases hcur
        rcases hkind with hkind | hkind
        · cases hkind
          have hsame : t.data.seesCopy owner key = some pending := by
            unfold ForwardData.seesCopy
            rw [howner]
            exact if_pos rfl
          rw [hkey] at hsees
          rw [hsees] at hsame
          exact ⟨hkey, .inr (by rw [some.inj hsame])⟩
        cases hkind
      exact h.othersPending _ howner hown
    calls := by
      intro other current hcur
      rcases setCall_some hcur with ⟨rfl, hsame⟩ | ⟨_, hkept⟩
      · cases hsame
        exact ⟨h.calls other _ hcall, hsees⟩
      exact h.calls other current hkept }

theorem commit_copies (d : ForwardData Key Snapshot) (id : Nat) (key : Key) :
    (d.commit id).copies key = d.seesCopy id key := rfl

theorem ForwardSound.commit_seesCopy (h : ForwardSound s t) (hne : other ≠ id)
    (hsees : t.data.seesCopy other key = some copy) :
    (t.data.commit id).seesCopy other key = some copy := by
  cases hpend : t.data.pending key with
  | none =>
    have hcopy : t.data.copies key = some copy := by
      unfold ForwardData.seesCopy at hsees
      rw [hpend] at hsees
      exact hsees
    unfold ForwardData.seesCopy
    have hnone : (t.data.commit id).pending key = none := by
      change (t.data.pending key).filter _ = none
      rw [hpend]
      rfl
    rw [hnone]
    exact h.seesCopy id hcopy
  | some owned =>
    obtain ⟨owner, pending⟩ := owned
    have hnone := (h.pending key owner pending hpend).2.1
    have hown : owner = other := by
      by_contra hother
      unfold ForwardData.seesCopy at hsees
      rw [hpend] at hsees
      simp only [hother, if_false, hnone] at hsees
      cases hsees
    subst hown
    have hkept : (t.data.commit id).pending key = some (owner, pending) := by
      change (t.data.pending key).filter _ = _
      rw [hpend]
      simp [Option.filter, hne]
    unfold ForwardData.seesCopy at hsees ⊢
    rw [hpend] at hsees
    rw [hkept]
    simp only [if_true] at hsees ⊢
    exact hsees

theorem ForwardSound.commits (h : ForwardSound s t)
    {result : Snapshot} (hcall : t.calls id = some (.committing origin source result))
    (hd : d' = t.data.commit id ∨ d' = { t.data.commit id with
      preserved := (s.sourceHash source, result) :: (t.data.commit id).preserved })
    (hnext : ∀ current, next = some current → CallStands s d' id current) :
    ForwardSound s ⟨d', setCall t.calls id next⟩ := by
  obtain ⟨_, hsees⟩ := h.calls id _ hcall
  have hparts : d'.pending = (t.data.commit id).pending ∧ d'.copies = (t.data.commit id).copies ∧
      d'.task = t.data.task ∧ d'.ensured = t.data.ensured ∧ d'.reads = t.data.reads := by
    rcases hd with rfl | rfl <;> exact ⟨rfl, rfl, rfl, rfl, rfl⟩
  obtain ⟨hpend, hcopies, htask, hensured, hreads⟩ := hparts
  constructor
  · intro key owner pending howner
    change d'.pending key = some (owner, pending) at howner
    rw [hpend] at howner
    obtain ⟨hpre, hne⟩ := reject_pending howner
    obtain ⟨hguard, hnone, hothers⟩ := h.othersPending next hpre hne
    refine ⟨hguard, ?_, hothers⟩
    change d'.copies key = none
    rw [hcopies, commit_copies]
    unfold ForwardData.seesCopy
    rw [hpre]
    simp only [hne, if_false, hnone]
  · rw [hensured, htask]
    exact h.ensured
  · rw [hreads, htask]
    exact h.reads
  · intro kept hkept
    change d'.copies kept.1 = some kept.2
    rw [hcopies, commit_copies]
    rcases hd with rfl | rfl
    · exact h.seesCopy id (h.preserved kept hkept)
    rcases mem_cons.mp hkept with rfl | hold
    · exact hsees
    exact h.seesCopy id (h.preserved kept hold)
  intro other current hcur
  rcases setCall_some hcur with ⟨rfl, hsame⟩ | ⟨hne, hkept⟩
  · exact hnext current hsame
  apply (h.calls other current hkept).changed
  · rw [htask]
    exact RowAdvances.refl _
  intro key copy hcopy
  have hafter := h.commit_seesCopy hne hcopy
  unfold ForwardData.seesCopy at hafter ⊢
  rw [hpend, hcopies]
  exact hafter

variable [DecidableEq Snapshot]

theorem ForwardSound.installed (h : ForwardSound s t) {before row : ForwardTask Snapshot} (hcall : t.calls id = some (.archiving task snapshot))
    (htask : t.data.task = some before) (hrow : before.archive task.content snapshot = some row) :
    ForwardSound s ⟨{ t.data.ensure id (task.sealed snapshot) with task := some row },
      setCall t.calls id (some .finishing)⟩ := by
  obtain ⟨_, held, hheld, hbase⟩ := h.calls id _ hcall
  rw [htask] at hheld
  cases hheld
  obtain ⟨_, hopen, rfl⟩ := Item.archive_eq_some hrow
  have hsame : before.sealed snapshot = task.sealed snapshot := by
    unfold Item.sealed
    rw [hbase]
  have hempty : t.data.ensured = [] := by
    apply h.ensured_none
    intro current hcur
    rw [htask] at hcur
    cases hcur
    exact hopen
  apply h.outside hcall rfl
  · rfl
  · rfl
  · rfl
  · rw [htask]
    intro item hitem
    cases hitem
    exact ⟨_, rfl, .inr ⟨hopen, snapshot, rfl⟩⟩
  · intro answer hanswer
    change answer ∈ (id, task.sealed snapshot) :: t.data.ensured at hanswer
    rw [hempty] at hanswer
    rw [mem_singleton.mp hanswer]
    exact ⟨congrArg some hsame, rfl⟩
  · exact fun _ => .inl
  intro current hcur
  cases hcur
  trivial

variable [DecidableEq Key]

omit [DecidableEq Snapshot] in
theorem ForwardSound.saved (h : ForwardSound s t)
    {content : Snapshot} (hcall : t.calls id = some (.saving origin source content))
    (hfree : t.data.waits id (s.sourceHash source) = false)
    (hnone : t.data.seesCopy id (s.sourceHash source) = none) :
    ForwardSound s ⟨s.write t.data id (s.sourceHash source) content,
      setCall t.calls id (some (.refetching origin source))⟩ := by
  have hpend : t.data.pending (s.sourceHash source) = none := by
    cases hpend : t.data.pending (s.sourceHash source) with
    | none => rfl
    | some owned =>
      obtain ⟨owner, copy⟩ := owned
      have hown : owner = id := by
        by_contra hne
        simp [ForwardData.waits, hpend, hne] at hfree
      subst hown
      exact absurd hpend (h.noPending hcall rfl _ _)
  have hcopies : t.data.copies (s.sourceHash source) = none := by
    unfold ForwardData.seesCopy at hnone
    rw [hpend] at hnone
    exact hnone
  have horigin : origin.sound t.data := h.calls id _ hcall
  unfold ForwardMediaService.write
  by_cases hguard : s.guarded = true
  · rw [if_pos hguard]
    constructor
    · intro key owner copy howner
      change Function.update t.data.pending _ _ key = _ at howner
      by_cases hkey : key = s.sourceHash source
      · subst hkey
        rw [update_self] at howner
        cases howner
        exact ⟨hguard, hcopies, _, setCall_self _ _ _, origin, source, rfl, .inl rfl⟩
      rw [update_of_ne hkey] at howner
      apply h.othersPending _ howner
      intro heq
      subst heq
      exact h.noPending hcall rfl _ _ howner
    · exact h.ensured
    · exact h.reads
    · exact h.preserved
    intro other current hcur
    rcases setCall_some hcur with ⟨rfl, hsame⟩ | ⟨hne, hkept⟩
    · cases hsame
      cases origin with
      | direct => trivial
      | task task => exact horigin
    refine (h.calls other current hkept).changed (RowAdvances.refl t.data.task) ?_
    intro key copy hsees
    unfold ForwardData.seesCopy at hsees ⊢
    by_cases hkey : key = s.sourceHash source
    · subst hkey
      rw [hpend] at hsees
      rw [hcopies] at hsees
      cases hsees
    simp only [update_of_ne hkey]
    exact hsees
  rw [if_neg hguard]
  have hno : ∀ key owned, t.data.pending key ≠ some owned := by
    intro key owned howner
    exact hguard (h.pending key owned.1 owned.2 howner).1
  constructor
  · intro key owner copy howner
    exact absurd howner (hno key _)
  · exact h.ensured
  · exact h.reads
  · intro kept hkept
    have hold := h.preserved kept hkept
    change Function.update t.data.copies _ _ kept.1 = _
    rw [update_of_ne]
    · exact hold
    intro heq
    rw [heq, hcopies] at hold
    cases hold
  intro other current hcur
  rcases setCall_some hcur with ⟨rfl, hsame⟩ | ⟨hne, hkept⟩
  · cases hsame
    cases origin with
    | direct => trivial
    | task task => exact horigin
  refine (h.calls other current hkept).changed (RowAdvances.refl t.data.task) ?_
  intro key copy hsees
  unfold ForwardData.seesCopy at hsees ⊢
  by_cases hkey : key = s.sourceHash source
  · subst hkey
    rw [hpend] at hsees
    rw [hcopies] at hsees
    cases hsees
  simp only [update_of_ne hkey]
  exact hsees

/-- What a statement does to the task and to the copies. -/
inductive ForwardStep (s : ForwardMediaService Key Snapshot) (id : Nat) (d : ForwardData Key Snapshot) :
    ForwardCall Snapshot → ForwardData Key Snapshot → Option (ForwardCall Snapshot) → Prop
  | moved (call next : ForwardCall Snapshot) (hout : call.inTransaction = false)
      (hstands : CallStands s d id call → CallStands s d id next) :
      ForwardStep s id d call d (some next)
  | created (base : TaskBase) (snapshot : Snapshot) (hnone : d.task = none) :
      ForwardStep s id d (.create base snapshot)
        { d with task := some ⟨base, snapshot, false⟩, draft := true } (some (.loading base))
  | failed (call : ForwardCall Snapshot) : ForwardStep s id d call (d.reject id) none
  | shown (call : ForwardCall Snapshot) (task : ForwardTask Snapshot) (htask : d.task = some task)
      (hout : call.inTransaction = false) : ForwardStep s id d call (d.read id task) none
  | found (call : ForwardCall Snapshot) (task : ForwardTask Snapshot) (htask : d.task = some task)
      (harch : task.archived = true) (hout : call.inTransaction = false) :
      ForwardStep s id d call (d.ensure id task) (some .finishing)
  | installed (task row : ForwardTask Snapshot) (snapshot : Snapshot) (before : ForwardTask Snapshot)
      (htask : d.task = some before) (hrow : before.archive task.content snapshot = some row) :
      ForwardStep s id d (.archiving task snapshot)
        { d.ensure id (task.sealed snapshot) with task := some row } (some .finishing)
  | saved (origin : Origin Snapshot) (source content : Snapshot)
      (hfree : d.waits id (s.sourceHash source) = false)
      (hnone : d.seesCopy id (s.sourceHash source) = none) :
      ForwardStep s id d (.saving origin source content)
        (s.write d id (s.sourceHash source) content) (some (.refetching origin source))
  | refetched (origin : Origin Snapshot) (source copy : Snapshot)
      (hsees : d.seesCopy id (s.sourceHash source) = some copy) :
      ForwardStep s id d (.refetching origin source) d (some (.committing origin source copy))
  | committed (source result : Snapshot) :
      ForwardStep s id d (.committing .direct source result) { d.commit id with
          preserved := (s.sourceHash source, result) :: (d.commit id).preserved } none
  | handed (task : ForwardTask Snapshot) (source result : Snapshot) :
      ForwardStep s id d (.committing (.task task) source result) (d.commit id)
        (some (.archiving task result))

theorem moved_step (following : Option (ForwardCall Snapshot)) (hout : call.inTransaction = false)
    (hstands : ∀ after, following = some after → CallStands s d id call → CallStands s d id after)
    (h : d.next id following = (d', next)) : ForwardStep s id d call d' next := by
  cases following with
  | none =>
    cases h
    exact .failed call
  | some after =>
    cases h
    exact .moved call after hout (hstands after rfl)

theorem loading_step {base : TaskBase} (h : s.advance id d (.loading base) .goes = some (d', next)) :
    ForwardStep s id d (.loading base) d' next := by
  simp only [ForwardMediaService.advance] at h
  split at h
  · cases h
    exact .failed _
  rename_i task hfound
  have htask : d.task = some task := (filter_eq_some_iff.mp hfound).1
  split at h
  · cases h
    exact .shown _ task htask rfl
  split at h
  · rename_i harch
    cases h
    exact .found _ task htask harch rfl
  rename_i hopen
  apply moved_step (s.ensureTask task) rfl _ (some.inj h)
  intro after hafter _
  exact ensureTask_stands ⟨Bool.eq_false_iff.mpr hopen, task, htask, rfl⟩ hafter

theorem saving_step {content : Snapshot}
    (h : s.advance id d (.saving origin source content) .goes = some (d', next)) :
    ForwardStep s id d (.saving origin source content) d' next := by
  simp only [ForwardMediaService.advance] at h
  split at h
  · cases h
  rename_i hfree
  split at h
  · cases h
    exact .moved _ _ rfl fun hstands => hstands
  rename_i hnone
  cases h
  exact .saved origin source content (Bool.eq_false_iff.mpr hfree) hnone

theorem archiving_step (h : s.advance id d (.archiving task snapshot) .goes = some (d', next)) :
    ForwardStep s id d (.archiving task snapshot) d' next := by
  simp only [ForwardMediaService.advance] at h
  split at h
  · rename_i row hrow
    obtain ⟨before, htask, harchive⟩ := bind_eq_some_iff.mp hrow
    cases h
    exact .installed task row snapshot before htask harchive
  cases h
  exact .moved _ _ rfl fun hstands => hstands

theorem forward_failing_step (h : s.advance id d call .fails = some (d', next)) :
    ForwardStep s id d call d' next := by
  cases call with
  | archiving task snapshot =>
    cases h
    exact .moved _ _ rfl fun hstands => hstands
  | committing origin source result =>
    simp only [ForwardMediaService.advance] at h
    split at h
    · cases h
      exact .failed _
    cases h
  | _ =>
    cases h
    exact .failed _

theorem forward_going_step (h : s.advance id d call .goes = some (d', next)) :
    ForwardStep s id d call d' next := by
  cases call with
  | create base snapshot =>
    simp only [ForwardMediaService.advance] at h
    split at h
    · cases h
      exact .moved _ _ rfl fun _ => trivial
    rename_i hnone
    cases h
    exact .created base snapshot hnone
  | loading base => exact loading_step h
  | get | finishing =>
    simp only [ForwardMediaService.advance] at h
    split at h
    · cases h
      exact .failed _
    rename_i task htask
    cases h
    exact .shown _ task htask rfl
  | preserve source =>
    apply moved_step (s.preserveDirect source) rfl _ (some.inj h)
    intro after hafter _
    exact preserveDirect_stands hafter
  | fetching origin source =>
    simp only [ForwardMediaService.advance] at h
    split at h
    · rename_i copy hsees
      cases h
      exact .moved _ _ rfl fun hstands => ⟨hstands, hsees⟩
    cases h
    exact .moved _ _ rfl fun hstands => hstands
  | saving origin source content => exact saving_step h
  | refetching origin source =>
    simp only [ForwardMediaService.advance] at h
    split at h
    · rename_i copy hsees
      cases h
      exact .refetched origin source copy hsees
    cases h
    exact .failed _
  | committing origin source result =>
    cases origin with
    | direct =>
      cases h
      exact .committed source result
    | task task =>
      cases h
      exact .handed task source result
  | archiving task snapshot => exact archiving_step h
  | rereading task =>
    simp only [ForwardMediaService.advance] at h
    split at h
    · rename_i current hcur
      obtain ⟨htask, harch⟩ := filter_eq_some_iff.mp hcur
      cases h
      exact .found _ current htask harch rfl
    cases h
    exact .failed _
  | copying _ _ => cases h

theorem forward_step (h : s.advance id d call choice = some (d', next)) :
    ForwardStep s id d call d' next := by
  cases choice with
  | fails => exact forward_failing_step h
  | goes => exact forward_going_step h
  | copied content =>
    cases call with
    | copying origin source =>
      simp only [ForwardMediaService.advance] at h
      apply moved_step _ rfl _ (some.inj h)
      intro after hafter hstands
      split at hafter
      · cases hafter
        exact hstands
      cases hafter
    | _ => cases h

theorem ForwardSound.advanced (h : ForwardSound s t) (hcall : t.calls id = some call)
    (hstep : ForwardStep s id t.data call d' next) :
    ForwardSound s ⟨d', setCall t.calls id next⟩ := by
  cases hstep with
  | moved _ following hout hstands => exact h.moved hcall hout (hstands (h.calls id _ hcall))
  | created base snapshot hnone => exact h.created hcall hnone
  | failed _ => exact h.failed
  | shown _ task htask hout => exact h.shown hcall hout htask
  | found _ task htask harch hout => exact h.found hcall hout htask harch
  | installed task row snapshot before htask hrow => exact h.installed hcall htask hrow
  | saved origin source content hfree hnone => exact h.saved hcall hfree hnone
  | refetched origin source copy hsees => exact h.refetched hcall hsees
  | committed source result =>
    apply h.commits hcall (.inr rfl)
    intro current hcur
    cases hcur
  | handed task source result =>
    obtain ⟨hopen, _⟩ := h.calls id _ hcall
    apply h.commits hcall (.inl rfl)
    intro current hcur
    cases hcur
    exact hopen

omit [DecidableEq Snapshot] [DecidableEq Key] in
theorem ForwardSound.started (h : ForwardSound s t) (hfree : t.calls id = none)
    (hstands : CallStands s t.data id call) :
    ForwardSound s ⟨t.data, setCall t.calls id (some call)⟩ := { h with
    pending := by
      intro key owner copy howner
      apply h.othersPending _ howner
      intro heq
      subst heq
      obtain ⟨_, _, current, hcur, _⟩ := h.pending key owner copy howner
      rw [hfree] at hcur
      cases hcur
    calls := by
      intro other current hcur
      rcases setCall_some hcur with ⟨rfl, hsame⟩ | ⟨_, hkept⟩
      · cases hsame
        exact hstands
      exact h.calls other current hkept }

theorem forward_sound (h : (forwardService s).machine.Reachable t) : ForwardSound s t := by
  apply h.invariant (ForwardSound s)
  · rintro start ⟨⟨hpend, hensured, hreads, hpreserved⟩, hcalls⟩
    constructor
    · intro key owner copy howner
      rw [hpend key] at howner
      cases howner
    · intro answer hanswer
      rw [hensured] at hanswer
      cases hanswer
    · intro read hread
      rw [hreads] at hread
      cases hread
    · intro kept hkept
      rw [hpreserved] at hkept
      cases hkept
    intro other current hcur
    rw [hcalls other] at hcur
    cases hcur
  intro before action after _ hsound hstep
  cases action with
  | start id call =>
    obtain ⟨hfree, hopens, rfl⟩ := start_some hstep
    apply hsound.started hfree
    cases call with
    | create _ _ | get | preserve _ => trivial
    | _ => cases hopens
  | advance id choice =>
    obtain ⟨call, data, next, hcall, hadv, rfl⟩ := advance_some hstep
    exact hsound.advanced hcall (forward_step hadv)
  | world event =>
    obtain ⟨data, hdata, rfl⟩ := world_some hstep
    cases hdata
    exact ⟨hsound.pending, hsound.ensured, hsound.reads, hsound.preserved,
      fun other current hcur => (hsound.calls other current hcur).changed
        (RowAdvances.refl _) fun _ _ hsees => hsees⟩

/-- A statement that changes the task inserts it, or it is the update after which
`EnsureTask` returns the new row. -/
inductive TaskStep (id : Nat) (d d' : ForwardData Key Snapshot) : Prop
  | kept (htask : d'.task = d.task)
  | inserted (task : ForwardTask Snapshot) (hnone : d.task = none) (htask : d'.task = some task)
      (hopen : task.archived = false)
  | archived (before after : ForwardTask Snapshot) (hpre : d.task = some before)
      (hadvances : before.Advances after) (htask : d'.task = some after)
      (hanswer : d'.ensured = (id, after) :: d.ensured)

theorem ForwardSound.taskStep (h : ForwardSound s t) (hcall : t.calls id = some call)
    (hstep : ForwardStep s id t.data call d' next) : TaskStep id t.data d' := by
  cases hstep with
  | created base snapshot hnone => exact .inserted _ hnone rfl rfl
  | installed task row snapshot before htask hrow =>
    obtain ⟨_, held, hheld, hbase⟩ := h.calls id _ hcall
    rw [htask] at hheld
    cases hheld
    have hadvances := Item.archive_advances hrow
    obtain ⟨_, _, rfl⟩ := Item.archive_eq_some hrow
    refine .archived before _ htask hadvances rfl ?_
    change (id, task.sealed snapshot) :: _ = (id, before.sealed snapshot) :: _
    unfold Item.sealed
    rw [hbase]
  | saved origin source content _ _ =>
    apply TaskStep.kept
    unfold ForwardMediaService.write
    split <;> rfl
  | moved _ _ _ _ | failed _ | shown _ _ _ _ | found _ _ _ _ _ | refetched _ _ _ _
  | committed _ _ | handed _ _ _ => exact .kept rfl

omit [DecidableEq Snapshot] [DecidableEq Key] in
theorem TaskStep.advances (h : TaskStep id d d') : RowAdvances d.task d'.task := by
  cases h with
  | kept htask =>
    rw [htask]
    exact RowAdvances.refl _
  | inserted _ hnone _ _ =>
    rw [hnone]
    exact RowAdvances.of_none _
  | archived before after hpre hadvances htask _ =>
    rw [hpre, htask]
    intro item hitem
    cases hitem
    exact ⟨after, rfl, hadvances⟩

theorem task_advances (hs : (forwardService s).machine.Reachable t)
    (path : (forwardService s).machine.Path Machine.unrestricted t u) :
    RowAdvances t.data.task u.data.task := by
  apply relates_of_path (fun d d' => RowAdvances d.task d'.task) (fun _ => RowAdvances.refl _)
    (fun _ _ _ => RowAdvances.trans) (fun _ => forward_sound) _ _ hs path
  · intro before id call choice d next _ hpre hcall hadv
    exact (hpre.taskStep hcall (forward_step hadv)).advances
  rintro _ _ _ _ - ⟨⟩
  exact RowAdvances.refl _

end ImApp.MediaArchive
