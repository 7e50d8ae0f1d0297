import ImApp.MediaArchive.Favorites

/-!
What holds of a favorite in every run. A write always replaces nothing or a
favorite that needs a copy, so no two transactions have one to commit, and an
archived favorite is never written again.
-/

namespace ImApp.MediaArchive

open ArchivedItem InterleavedCalls StepSystem List Option Service Bool
open JsonText (Text)

variable {s : FavoriteService} {id other : Nat} {d d' : FavoriteData} {call : FavoriteCall}
  {next : Option FavoriteCall} {choice : FavoriteChoice} {favorite : Favorite}
  {t u : State FavoriteData FavoriteCall}

/-- What a call has established about the row. -/
def Stands (d : FavoriteData) (id : Nat) : FavoriteCall → Prop
  | .committing result => d.sees id = some result ∧ settled result = true
  | .copying existing | .updating existing _ | .rereading existing =>
    settled existing = false ∧ ∃ row, d.row = some row ∧ row.base = existing.base
  | _ => True

/-- A write over the row: it is settled, and what it replaces is not. -/
def Replaces (row : Option Favorite) (written : Favorite) : Prop :=
  settled written = true ∧
    ∀ replaced, row = some replaced → settled replaced = false ∧ replaced.Advances written

variable {written : Favorite}

theorem RowAdvances.of_replaces {row : Option Favorite}
    (h : Replaces row written) : RowAdvances row (some written) := fun favorite hfavorite =>
  ⟨written, rfl, (h.2 favorite hfavorite).2⟩

structure FavoriteSound (s : FavoriteService) (t : State FavoriteData FavoriteCall) : Prop where
  writer : ∀ id written, t.data.writer = some (id, written) →
    s.guarded = true ∧ t.calls id = some (.committing written) ∧ Replaces t.data.row written
  answers : ∀ answer ∈ t.data.answers, t.data.row = some answer.2 ∧ settled answer.2 = true
  reads : ∀ read ∈ t.data.reads, ∃ later, t.data.row = some later ∧ read.2.Advances later
  calls : ∀ id call, t.calls id = some call → Stands t.data id call

theorem FavoriteSound.readsAfter (h : FavoriteSound s t) {row : Option Favorite}
    (hrow : RowAdvances t.data.row row) :
    ∀ read ∈ t.data.reads, ∃ later, row = some later ∧ read.2.Advances later := by
  intro read hread
  obtain ⟨middle, hmiddle, hfirst⟩ := h.reads read hread
  obtain ⟨later, hlater, hsecond⟩ := hrow middle hmiddle
  exact ⟨later, hlater, hfirst.trans hsecond⟩

theorem sees_row (h : ∀ written, d.writer ≠ some (id, written)) : d.sees id = d.row := by
  unfold FavoriteData.sees
  cases hwriter : d.writer with
  | none => rfl
  | some owned =>
    obtain ⟨owner, written⟩ := owned
    have hne : owner ≠ id := by
      intro heq
      subst heq
      exact h written hwriter
    exact if_neg hne

theorem writer_none (hfree : d.waits id = false) (h : ∀ written, d.writer ≠ some (id, written)) :
    d.writer = none := by
  cases hwriter : d.writer with
  | none => rfl
  | some owned =>
    obtain ⟨owner, written⟩ := owned
    unfold FavoriteData.waits at hfree
    rw [hwriter] at hfree
    have hsame : owner = id := by
      by_contra hne
      simp [hne] at hfree
    subst hsame
    exact absurd hwriter (h written)

theorem FavoriteSound.not_writer (h : FavoriteSound s t) (hcall : t.calls id = some call)
    (hne : ∀ result, call ≠ .committing result) (written : Favorite) :
    t.data.writer ≠ some (id, written) := by
  intro hwriter
  have hcommit := (h.writer id written hwriter).2.1
  rw [hcall] at hcommit
  exact hne written (some.inj hcommit)

/-- A row that changes under a call was not settled, so the call has not found a
settled one. -/
theorem Stands.changed (h : Stands d other call) (hpre : d.sees other = d.row) (hrepl : Replaces d.row written) (hrow : d'.row = some written) :
    Stands d' other call := by
  have hbase : ∀ existing : Favorite, (∃ row, d.row = some row ∧ row.base = existing.base) →
      ∃ row, d'.row = some row ∧ row.base = existing.base := by
    rintro existing ⟨row, hrow', hbase⟩
    exact ⟨written, hrow, (hrepl.2 row hrow').2.base.trans hbase⟩
  cases call with
  | committing result =>
    obtain ⟨hsees, hset⟩ := h
    rw [hpre] at hsees
    rw [(hrepl.2 result hsees).1] at hset
    cases hset
  | copying existing | updating existing content | rereading existing =>
    exact ⟨h.1, hbase existing h.2⟩
  | create _ | looking _ | preserving _ | inserting _ _ | selecting | archiveExisting | list =>
    trivial

theorem Stands.same (h : Stands d other call) (hrow : d'.row = d.row)
    (hsees : d'.sees other = d.sees other) : Stands d' other call := by
  cases call with
  | committing result => exact ⟨hsees.trans h.1, h.2⟩
  | copying existing | updating existing content | rereading existing =>
    obtain ⟨hopen, row, hold, hbase⟩ := h
    exact ⟨hopen, row, hrow.trans hold, hbase⟩
  | create _ | looking _ | preserving _ | inserting _ _ | selecting | archiveExisting | list =>
    trivial

theorem FavoriteSound.no_answers (h : FavoriteSound s t)
    (hrepl : Replaces t.data.row written) : t.data.answers = [] := by
  apply eq_nil_iff_forall_not_mem.mpr
  intro answer hanswer
  obtain ⟨hrow, hset⟩ := h.answers answer hanswer
  rw [(hrepl.2 answer.2 hrow).1] at hset
  cases hset

theorem FavoriteSound.goOn (h : FavoriteSound s t) (hcall : t.calls id = some call)
    (hne : ∀ result, call ≠ .committing result) {following : FavoriteCall}
    (hstands : Stands t.data id following) :
    FavoriteSound s ⟨t.data, setCall t.calls id (some following)⟩ := { h with
    writer := by
      intro owner written hwriter
      obtain ⟨hguard, hcommit, hrepl⟩ := h.writer owner written hwriter
      have hother : owner ≠ id := by
        intro heq
        subst heq
        exact h.not_writer hcall hne written hwriter
      exact ⟨hguard, (setCall_of_ne _ hother).trans hcommit, hrepl⟩
    calls := by
      intro other current hcur
      rcases setCall_some hcur with ⟨rfl, hsame⟩ | ⟨_, hkept⟩
      · cases hsame
        exact hstands
      exact h.calls other current hkept }

theorem reject_row (d : FavoriteData) (id : Nat) : (d.reject id).row = d.row := by
  unfold FavoriteData.reject
  split
  · split <;> rfl
  rfl

theorem reject_answers (d : FavoriteData) (id : Nat) : (d.reject id).answers = d.answers := by
  unfold FavoriteData.reject
  split
  · split <;> rfl
  rfl

theorem reject_reads (d : FavoriteData) (id : Nat) : (d.reject id).reads = d.reads := by
  unfold FavoriteData.reject
  split
  · split <;> rfl
  rfl

theorem reject_writer {owner : Nat} (h : (d.reject id).writer = some (owner, favorite)) :
    d.writer = some (owner, favorite) ∧ owner ≠ id := by
  unfold FavoriteData.reject at h
  split at h
  · split at h
    · cases h
    rename_i hwriter hne
    rw [hwriter] at h
    cases h
    exact ⟨hwriter, hne⟩
  rename_i hwriter
  rw [hwriter] at h
  cases h

theorem reject_sees (hne : other ≠ id) : (d.reject id).sees other = d.sees other := by
  unfold FavoriteData.reject FavoriteData.sees
  cases hwriter : d.writer with
  | none => simp [hwriter]
  | some owned =>
    obtain ⟨owner, written⟩ := owned
    by_cases howner : owner = id
    · subst howner
      simp [hne.symm]
    simp [howner, hwriter]

theorem FavoriteSound.failed (h : FavoriteSound s t) :
    FavoriteSound s ⟨t.data.reject id, setCall t.calls id none⟩ where
  writer := by
    intro owner written hwriter
    obtain ⟨hpre, hne⟩ := reject_writer hwriter
    obtain ⟨hguard, hcommit, hrepl⟩ := h.writer owner written hpre
    refine ⟨hguard, (setCall_of_ne _ hne).trans hcommit, ?_⟩
    rw [reject_row]
    exact hrepl
  answers := by
    intro answer hanswer
    rw [reject_answers] at hanswer
    rw [reject_row]
    exact h.answers answer hanswer
  reads := by
    rw [reject_reads, reject_row]
    exact h.reads
  calls := by
    intro other current hcur
    rcases setCall_some hcur with ⟨_, hsame⟩ | ⟨hne, hkept⟩
    · cases hsame
    exact (h.calls other current hkept).same (reject_row _ _) (reject_sees hne)

theorem FavoriteSound.wrote (h : FavoriteSound s t) (hnone : t.data.writer = none) (hrepl : Replaces t.data.row written) :
    FavoriteSound s ⟨s.write t.data id written, setCall t.calls id (some (.committing written))⟩ := by
  have hempty := h.no_answers hrepl
  have hsees : ∀ other, t.data.sees other = t.data.row := by
    intro other
    apply sees_row
    intro w hwriter
    rw [hnone] at hwriter
    cases hwriter
  unfold FavoriteService.write
  by_cases hguard : s.guarded = true
  · rw [if_pos hguard]
    constructor
    · intro owner w hwriter
      cases hwriter
      exact ⟨hguard, setCall_self _ _ _, hrepl⟩
    · intro answer hanswer
      rw [hempty] at hanswer
      cases hanswer
    · exact h.reads
    intro other current hcur
    rcases setCall_some hcur with ⟨rfl, hsame⟩ | ⟨hne, hkept⟩
    · cases hsame
      exact ⟨if_pos rfl, hrepl.1⟩
    refine (h.calls other current hkept).same rfl ?_
    rw [hsees other]
    exact if_neg hne.symm
  rw [if_neg hguard]
  constructor
  · intro owner w hwriter
    rw [hnone] at hwriter
    cases hwriter
  · intro answer hanswer
    rw [hempty] at hanswer
    cases hanswer
  · exact h.readsAfter (RowAdvances.of_replaces hrepl)
  intro other current hcur
  rcases setCall_some hcur with ⟨rfl, hsame⟩ | ⟨_, hkept⟩
  · cases hsame
    refine ⟨?_, hrepl.1⟩
    rw [sees_row]
    intro w hwriter
    rw [hnone] at hwriter
    cases hwriter
  exact (h.calls other current hkept).changed (hsees other) hrepl rfl

theorem resolve_other (result : Favorite) (h : ∀ written, d.writer ≠ some (id, written)) :
    d.resolve id result = { d with answers := (id, result) :: d.answers } := by
  unfold FavoriteData.resolve
  split
  · rename_i owner written hwriter
    have hne : owner ≠ id := by
      intro heq
      subst heq
      exact h written hwriter
    rw [if_neg hne]
  rfl

theorem resolve_own (result : Favorite) (h : d.writer = some (id, written)) : d.resolve id result =
      { d with row := some written, writer := none, answers := (id, result) :: d.answers } := by
  unfold FavoriteData.resolve
  rw [h]
  exact if_pos rfl

theorem FavoriteSound.answered (h : FavoriteSound s t) {result : Favorite}
    (hcall : t.calls id = some (.committing result)) :
    FavoriteSound s ⟨t.data.resolve id result, setCall t.calls id none⟩ := by
  obtain ⟨hsees, hset⟩ := h.calls id _ hcall
  by_cases howns : ∃ written, t.data.writer = some (id, written)
  · obtain ⟨written, hwriter⟩ := howns
    obtain ⟨hguard, _, hrepl⟩ := h.writer id written hwriter
    have hres : written = result := by
      unfold FavoriteData.sees at hsees
      rw [hwriter] at hsees
      simpa using hsees
    subst hres
    have hempty := h.no_answers hrepl
    rw [resolve_own written hwriter, hempty]
    constructor
    · intro owner w hnone
      cases hnone
    · intro answer hanswer
      rw [mem_singleton.mp hanswer]
      exact ⟨rfl, hset⟩
    · exact h.readsAfter (RowAdvances.of_replaces hrepl)
    intro other current hcur
    rcases setCall_some hcur with ⟨_, hsame⟩ | ⟨hne, hkept⟩
    · cases hsame
    refine (h.calls other current hkept).changed ?_ hrepl rfl
    apply sees_row
    intro w hother
    rw [hwriter] at hother
    cases hother
    exact hne rfl
  have hother : ∀ written, t.data.writer ≠ some (id, written) := fun written hwriter =>
    howns ⟨written, hwriter⟩
  rw [sees_row hother] at hsees
  rw [resolve_other result hother]
  constructor
  · intro owner written hwriter
    obtain ⟨hguard, hcommit, hrepl⟩ := h.writer owner written hwriter
    have hne : owner ≠ id := by
      intro heq
      subst heq
      exact hother written hwriter
    exact ⟨hguard, (setCall_of_ne _ hne).trans hcommit, hrepl⟩
  · intro answer hanswer
    rcases mem_cons.mp hanswer with rfl | hold
    · exact ⟨hsees, hset⟩
    exact h.answers answer hold
  · exact h.reads
  intro other current hcur
  rcases setCall_some hcur with ⟨_, hsame⟩ | ⟨_, hkept⟩
  · cases hsame
  exact (h.calls other current hkept).same rfl rfl

theorem show_eq (d : FavoriteData) (id : Nat) : ∃ reads, d.show id = { d with reads } ∧
    ∀ read ∈ reads, read ∈ d.reads ∨ d.row = some read.2 := by
  unfold FavoriteData.show
  split
  · rename_i favorite hrow
    refine ⟨(id, favorite) :: d.reads, rfl, ?_⟩
    intro read hread
    rcases mem_cons.mp hread with rfl | hold
    · exact .inr hrow
    exact .inl hold
  exact ⟨d.reads, rfl, fun _ => .inl⟩

theorem FavoriteSound.listed (h : FavoriteSound s t) (hcall : t.calls id = some .list) :
    FavoriteSound s ⟨t.data.show id, setCall t.calls id none⟩ := by
  obtain ⟨reads, hshow, hreads⟩ := show_eq t.data id
  rw [hshow]
  constructor
  · intro owner written hwriter
    obtain ⟨hguard, hcommit, hrepl⟩ := h.writer owner written hwriter
    have hne : owner ≠ id := by
      intro heq
      subst heq
      exact h.not_writer hcall (fun _ heq => by cases heq) written hwriter
    exact ⟨hguard, (setCall_of_ne _ hne).trans hcommit, hrepl⟩
  · exact h.answers
  · intro read hread
    rcases hreads read hread with hold | hrow
    · exact h.reads read hold
    exact ⟨read.2, hrow, Item.Advances.refl _⟩
  intro other current hcur
  rcases setCall_some hcur with ⟨_, hsame⟩ | ⟨_, hkept⟩
  · cases hsame
  exact (h.calls other current hkept).same rfl rfl

theorem FavoriteSound.started (h : FavoriteSound s t) (hfree : t.calls id = none)
    (hstands : Stands t.data id call) :
    FavoriteSound s ⟨t.data, setCall t.calls id (some call)⟩ := { h with
    writer := by
      intro owner written hwriter
      obtain ⟨hguard, hcommit, hrepl⟩ := h.writer owner written hwriter
      have hother : owner ≠ id := by
        intro heq
        subst heq
        rw [hfree] at hcommit
        cases hcommit
      exact ⟨hguard, (setCall_of_ne _ hother).trans hcommit, hrepl⟩
    calls := by
      intro other current hcur
      rcases setCall_some hcur with ⟨rfl, hsame⟩ | ⟨_, hkept⟩
      · cases hsame
        exact hstands
      exact h.calls other current hkept }

/-- A favorite that the call has found, where it goes on with `ensureArchived`. -/
theorem stands_ensure {existing : Favorite} {following : FavoriteCall}
    (hsees : d.sees id = some existing) (hrow : d.sees id = d.row)
    (hnext : s.ensureArchived existing = some following) : Stands d id following := by
  unfold FavoriteService.ensureArchived at hnext
  split at hnext
  · rename_i hset
    cases hnext
    exact ⟨hsees, hset⟩
  rename_i hopen
  split at hnext
  · cases hnext
    exact ⟨Bool.eq_false_iff.mpr hopen, existing, hrow ▸ hsees, rfl⟩
  cases hnext

theorem replaces_of_archive {existing row : Favorite} {content : Text}
    (hopen : settled existing = false) (hrow : d.row = some row) (hbase : row.base = existing.base)
    (hwritten : row.archive existing.content content = some written) :
    Replaces d.row written ∧ written = existing.sealed content := by
  obtain ⟨hcontent, harch, rfl⟩ := Item.archive_eq_some hwritten
  constructor
  · constructor
    · simp [settled]
    intro replaced hrepld
    rw [hrow] at hrepld
    cases hrepld
    refine ⟨?_, .inr ⟨harch, content, rfl⟩⟩
    unfold settled at hopen ⊢
    rw [hbase, harch]
    simp only [or_eq_false_iff] at hopen ⊢
    exact ⟨hopen.1, trivial⟩
  unfold Item.sealed
  rw [hbase]

theorem before_stands (hpre : call.before = true) : Stands d id call := by
  cases call with
  | looking _ | preserving _ | inserting _ _ | selecting => trivial
  | create _ | archiveExisting | list | copying _ | updating _ _ | rereading _ | committing _ =>
    cases hpre

theorem FavoriteSound.advanced (h : FavoriteSound s t) (hcall : t.calls id = some call)
    (hstep : FavoriteStep s id t.data call d' next) :
    FavoriteSound s ⟨d', setCall t.calls id next⟩ := by
  cases hstep with
  | before _ following hpre hne => exact h.goOn hcall hne (before_stands hpre)
  | found _ existing following hsees hnext hne =>
    have hrow := sees_row (h.not_writer hcall hne)
    exact h.goOn hcall hne (stands_ensure hsees hrow hnext)
  | copied existing content =>
    have hstands := h.calls id (.copying existing) hcall
    exact h.goOn hcall (fun _ heq => by cases heq) hstands
  | lost existing content =>
    have hstands := h.calls id (.updating existing content) hcall
    exact h.goOn hcall (fun _ heq => by cases heq) hstands
  | adopted existing current hsees harch =>
    refine h.goOn hcall (fun _ heq => by cases heq) ⟨hsees, ?_⟩
    simp [settled, harch]
  | failed _ _ => exact h.failed
  | inserted request content newID hfree hsees =>
    have hnot := h.not_writer hcall (fun _ heq => by cases heq)
    apply h.wrote (writer_none hfree hnot)
    constructor
    · simp [settled, CreateFavoriteRequest.favorite]
    intro replaced hrepld
    rw [← sees_row hnot, hsees] at hrepld
    cases hrepld
  | installed existing row written content hfree hsees hid hwritten =>
    have hnot := h.not_writer hcall (fun _ heq => by cases heq)
    obtain ⟨hopen, held, hheld, hbase⟩ := h.calls id _ hcall
    rw [sees_row hnot] at hsees
    have hsame : held = row := some.inj (hheld.symm.trans hsees)
    subst hsame
    obtain ⟨hrepl, hsealed⟩ := replaces_of_archive hopen hheld hbase hwritten
    rw [← hsealed]
    exact h.wrote (writer_none hfree hnot) hrepl
  | listed => exact h.listed hcall
  | answered result => exact h.answered hcall

theorem FavoriteSound.legacy (h : FavoriteSound s t) {event : Favorite}
    (hevent : legacyInsert t.data event = some d') : FavoriteSound s ⟨d', t.calls⟩ := by
  unfold legacyInsert at hevent
  split at hevent
  · rename_i hfree
    simp only [and_eq_true, isNone_iff_eq_none] at hfree
    obtain ⟨⟨hrow, hwriter⟩, _⟩ := hfree
    cases hevent
    have hnone : Replaces t.data.row (event.sealed event.content) := by
      constructor
      · simp [settled]
      intro replaced hrepld
      rw [hrow] at hrepld
      cases hrepld
    constructor
    · intro owner written howner
      rw [hwriter] at howner
      cases howner
    · intro answer hanswer
      rw [h.no_answers hnone] at hanswer
      cases hanswer
    · intro read hread
      obtain ⟨later, hlater, _⟩ := h.reads read hread
      rw [hrow] at hlater
      cases hlater
    intro other current hcur
    have hstands := h.calls other current hcur
    have hsees : t.data.sees other = none := by
      unfold FavoriteData.sees
      rw [hwriter]
      exact hrow
    cases current with
    | committing result =>
      rw [hstands.1] at hsees
      cases hsees
    | copying existing | updating existing content | rereading existing =>
      obtain ⟨_, row, hheld, _⟩ := hstands
      rw [hrow] at hheld
      cases hheld
    | create _ | looking _ | preserving _ | inserting _ _ | selecting | archiveExisting | list =>
      trivial
  cases hevent

theorem favorite_sound (h : (favoriteService s).machine.Reachable t) : FavoriteSound s t := by
  apply h.invariant (FavoriteSound s)
  · rintro start ⟨⟨hwriter, hanswers, hreads⟩, hcalls⟩
    constructor
    · intro owner written howner
      rw [hwriter] at howner
      cases howner
    · intro answer hanswer
      rw [hanswers] at hanswer
      cases hanswer
    · intro read hread
      rw [hreads] at hread
      cases hread
    intro other current hcur
    rw [hcalls other] at hcur
    cases hcur
  intro before action after _ hsound hstep
  cases action with
  | start id call =>
    obtain ⟨hfree, hopens, rfl⟩ := start_some hstep
    apply hsound.started hfree
    cases call with
    | create _ | archiveExisting | list => trivial
    | _ => cases hopens
  | advance id choice =>
    obtain ⟨call, data, next, hcall, hadv, rfl⟩ := advance_some hstep
    exact hsound.advanced hcall (advance_step hadv)
  | world event =>
    obtain ⟨data, hdata, rfl⟩ := world_some hstep
    exact hsound.legacy hdata

/-- A statement that changes the row is the commit of a call that returns the new
row, or, without a guard, the write in front of that. -/
inductive RowStep (s : FavoriteService) (id : Nat) (d d' : FavoriteData) :
    Option FavoriteCall → Prop
  | kept (next : Option FavoriteCall) (hrow : d'.row = d.row) : RowStep s id d d' next
  | committed (result : Favorite) (hadvances : Replaces d.row result) (hrow : d'.row = some result)
      (hanswer : d'.answers = (id, result) :: d.answers) : RowStep s id d d' none
  | written (result : Favorite) (hadvances : Replaces d.row result) (hrow : d'.row = some result)
      (hguard : s.guarded = false) : RowStep s id d d' (some (.committing result))

theorem write_step (hrepl : Replaces d.row written) :
    RowStep s id d (s.write d id written) (some (.committing written)) := by
  unfold FavoriteService.write
  by_cases hguard : s.guarded = true
  · rw [if_pos hguard]
    exact .kept _ rfl
  rw [if_neg hguard]
  exact .written written hrepl rfl (Bool.eq_false_iff.mpr hguard)

theorem FavoriteSound.rowStep (h : FavoriteSound s t) (hcall : t.calls id = some call)
    (hstep : FavoriteStep s id t.data call d' next) : RowStep s id t.data d' next := by
  cases hstep with
  | before _ _ _ _ | found _ _ _ _ _ _ | copied _ _ | lost _ _ | adopted _ _ _ _ =>
    exact .kept _ rfl
  | failed _ _ => exact .kept _ (reject_row _ _)
  | listed =>
    obtain ⟨reads, hshow, _⟩ := show_eq t.data id
    rw [hshow]
    exact .kept _ rfl
  | inserted request content newID hfree hsees =>
    apply write_step
    constructor
    · simp [settled, CreateFavoriteRequest.favorite]
    intro replaced hrepld
    rw [← sees_row (h.not_writer hcall fun _ heq => by cases heq), hsees] at hrepld
    cases hrepld
  | installed existing row written content hfree hsees hid hwritten =>
    obtain ⟨hopen, held, hheld, hbase⟩ := h.calls id _ hcall
    rw [sees_row (h.not_writer hcall fun _ heq => by cases heq)] at hsees
    have hsame : held = row := some.inj (hheld.symm.trans hsees)
    subst hsame
    obtain ⟨hrepl, hsealed⟩ := replaces_of_archive hopen hheld hbase hwritten
    rw [← hsealed]
    exact write_step hrepl
  | answered result =>
    by_cases howns : ∃ written, t.data.writer = some (id, written)
    · obtain ⟨written, hwriter⟩ := howns
      obtain ⟨_, hcommit, hrepl⟩ := h.writer id written hwriter
      rw [hcall] at hcommit
      cases hcommit
      rw [resolve_own result hwriter]
      exact .committed result hrepl rfl rfl
    rw [resolve_other result fun written hwriter => howns ⟨written, hwriter⟩]
    exact .kept _ rfl

theorem RowStep.advances (h : RowStep s id d d' next) : RowAdvances d.row d'.row := by
  cases h with
  | kept _ hrow =>
    rw [hrow]
    exact RowAdvances.refl _
  | committed _ hrepl hrow _ | written _ hrepl hrow _ =>
    rw [hrow]
    exact RowAdvances.of_replaces hrepl

theorem legacy_advances {event : Favorite} (hevent : legacyInsert d event = some d') :
    RowAdvances d.row d'.row := by
  unfold legacyInsert at hevent
  split at hevent
  · rename_i hfree
    simp only [and_eq_true, isNone_iff_eq_none] at hfree
    intro favorite hfavorite
    rw [hfree.1.1] at hfavorite
    cases hfavorite
  cases hevent

theorem row_advances (hs : (favoriteService s).machine.Reachable t)
    (path : (favoriteService s).machine.Path Machine.unrestricted t u) :
    RowAdvances t.data.row u.data.row := by
  apply relates_of_path (fun d d' => RowAdvances d.row d'.row) (fun _ => RowAdvances.refl _)
    (fun _ _ _ => RowAdvances.trans) (fun _ => favorite_sound) _ _ hs path
  · intro before id call choice d next _ hpre hcall hadv
    exact (hpre.rowStep hcall (advance_step hadv)).advances
  exact fun _ _ _ _ _ => legacy_advances

end ImApp.MediaArchive
