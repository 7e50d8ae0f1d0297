import ImApp.MediaArchive.FavoriteRuns
import ImApp.MediaArchive.ForwardRuns

/-!
Both paths that archive media, in every run: what a request returns is what is
stored, an archived item is final, and the stored content changes by the step of a
request that returns it.
-/

namespace ImApp.MediaArchive

open ArchivedItem InterleavedCalls StepSystem

/-- The promises of the favorites. -/
structure FavoriteArchiveSound (s : FavoriteService) : Prop where
  returned : ∀ t, (favoriteService s).machine.Reachable t → ∀ answer ∈ t.data.answers,
    t.data.row = some answer.2 ∧ (isMedia answer.2.base.type = true → answer.2.archived = true)
  shown : ∀ t, (favoriteService s).machine.Reachable t → ∀ read ∈ t.data.reads,
    ∃ later, t.data.row = some later ∧ read.2.Advances later
  advances : ∀ t u, (favoriteService s).machine.Reachable t →
    (favoriteService s).machine.Path Machine.unrestricted t u → RowAdvances t.data.row u.data.row
  changed : ∀ t action u, (favoriteService s).machine.Reachable t →
    (favoriteService s).machine.step t action = some u → u.data.row ≠ t.data.row →
    (∃ favorite, action = .world favorite) ∨
      ∃ id choice result, action = .advance id choice ∧ u.data.row = some result ∧
        ((id, result) ∈ u.data.answers ∨
          (s.guarded = false ∧ u.calls id = some (.committing result)))
  completes : ∀ id d result choice d' next, s.guarded = false →
    s.advance id d (.committing result) choice = some (d', next) → (id, result) ∈ d'.answers

/-- The promises of the forward tasks and of the copies that they share. -/
structure ForwardArchiveSound {Key Snapshot : Type} [DecidableEq Key] [DecidableEq Snapshot]
    (s : ForwardMediaService Key Snapshot) : Prop where
  returned : ∀ t, (forwardService s).machine.Reachable t → ∀ answer ∈ t.data.ensured,
    t.data.task = some answer.2 ∧ answer.2.archived = true
  shown : ∀ t, (forwardService s).machine.Reachable t → ∀ read ∈ t.data.reads,
    ∃ later, t.data.task = some later ∧ read.2.Advances later
  preserved : ∀ t, (forwardService s).machine.Reachable t → ∀ kept ∈ t.data.preserved,
    t.data.copies kept.1 = some kept.2
  advances : ∀ t u, (forwardService s).machine.Reachable t →
    (forwardService s).machine.Path Machine.unrestricted t u → RowAdvances t.data.task u.data.task
  changed : ∀ t action u, (forwardService s).machine.Reachable t →
    (forwardService s).machine.step t action = some u → u.data.task ≠ t.data.task →
    ∃ id choice task, action = .advance id choice ∧ u.data.task = some task ∧
      ((t.data.task = none ∧ task.archived = false) ∨ (id, task) ∈ u.data.ensured)

theorem resolve_answers (d : FavoriteData) (id : Nat) (result : Favorite) :
    (id, result) ∈ (d.resolve id result).answers := by
  unfold FavoriteData.resolve
  split
  · split <;> exact List.mem_cons_self
  exact List.mem_cons_self

theorem favorite_changed {s : FavoriteService} {t u : State FavoriteData FavoriteCall}
    {action : Action FavoriteCall FavoriteChoice Favorite}
    (ht : (favoriteService s).machine.Reachable t)
    (hstep : (favoriteService s).machine.step t action = some u)
    (hchanged : u.data.row ≠ t.data.row) : (∃ favorite, action = .world favorite) ∨
      ∃ id choice result, action = .advance id choice ∧ u.data.row = some result ∧
        ((id, result) ∈ u.data.answers ∨
          (s.guarded = false ∧ u.calls id = some (.committing result))) := by
  cases action with
  | start id call =>
    obtain ⟨_, _, rfl⟩ := Service.start_some hstep
    exact absurd rfl hchanged
  | advance id choice =>
    obtain ⟨call, data, next, hcall, hadv, rfl⟩ := Service.advance_some hstep
    apply Or.inr
    cases (favorite_sound ht).rowStep hcall (advance_step hadv) with
    | kept _ hrow => exact absurd hrow hchanged
    | committed result _ hrow hanswer =>
      refine ⟨id, choice, result, rfl, hrow, Or.inl ?_⟩
      change (id, result) ∈ data.answers
      rw [hanswer]
      exact List.mem_cons_self
    | written result _ hrow hguard =>
      exact ⟨id, choice, result, rfl, hrow, Or.inr ⟨hguard, setCall_self _ _ _⟩⟩
  | world event => exact Or.inl ⟨event, rfl⟩

theorem favorite_archive_sound (s : FavoriteService) : FavoriteArchiveSound s where
  returned := by
    intro t ht answer hanswer
    obtain ⟨hrow, hset⟩ := (favorite_sound ht).answers answer hanswer
    refine ⟨hrow, ?_⟩
    intro hmedia
    simpa [settled, hmedia] using hset
  shown := fun _ ht => (favorite_sound ht).reads
  advances := fun _ _ ht path => row_advances ht path
  changed := fun _ _ _ ht hstep hchanged => favorite_changed ht hstep hchanged
  completes := by
    intro id d result choice d' next hguard hadv
    cases choice with
    | goes =>
      cases hadv
      exact resolve_answers d id result
    | fails =>
      simp only [FavoriteService.advance, hguard] at hadv
      cases hadv
    | copied content | inserted newID => cases hadv

section Forward

variable {Key Snapshot : Type} [DecidableEq Key] [DecidableEq Snapshot]
  {s : ForwardMediaService Key Snapshot}
  {t u : State (ForwardData Key Snapshot) (ForwardCall Snapshot)}

theorem task_changed {action : Action (ForwardCall Snapshot) (ForwardChoice Snapshot) Unit}
    (ht : (forwardService s).machine.Reachable t)
    (hstep : (forwardService s).machine.step t action = some u)
    (hchanged : u.data.task ≠ t.data.task) :
    ∃ id choice task, action = .advance id choice ∧ u.data.task = some task ∧
      ((t.data.task = none ∧ task.archived = false) ∨ (id, task) ∈ u.data.ensured) := by
  cases action with
  | start id call =>
    obtain ⟨_, _, rfl⟩ := Service.start_some hstep
    exact absurd rfl hchanged
  | advance id choice =>
    obtain ⟨call, data, next, hcall, hadv, rfl⟩ := Service.advance_some hstep
    cases (forward_sound ht).taskStep hcall (forward_step hadv) with
    | kept htask => exact absurd htask hchanged
    | inserted task hnone htask hopen =>
      exact ⟨id, choice, task, rfl, htask, Or.inl ⟨hnone, hopen⟩⟩
    | archived before after _ _ htask hanswer =>
      refine ⟨id, choice, after, rfl, htask, Or.inr ?_⟩
      change (id, after) ∈ data.ensured
      rw [hanswer]
      exact List.mem_cons_self
  | world event =>
    obtain ⟨data, hdata, rfl⟩ := Service.world_some hstep
    cases hdata
    exact absurd rfl hchanged

theorem forward_archive_sound (s : ForwardMediaService Key Snapshot) : ForwardArchiveSound s where
  returned := fun _ ht => (forward_sound ht).ensured
  shown := fun _ ht => (forward_sound ht).reads
  preserved := fun _ ht => (forward_sound ht).preserved
  advances := fun _ _ ht path => task_advances ht path
  changed := fun _ _ _ ht hstep hchanged => task_changed ht hstep hchanged

end Forward

/-- The archive of media by compare and set, for favorites and for forward tasks. -/
theorem media_archive_compare_and_set : (∀ s : FavoriteService, FavoriteArchiveSound s) ∧
      ∀ (Key Snapshot : Type) [DecidableEq Key] [DecidableEq Snapshot]
        (s : ForwardMediaService Key Snapshot), ForwardArchiveSound s := by
  constructor
  · exact favorite_archive_sound
  intro Key Snapshot _ _ s
  exact forward_archive_sound s

end ImApp.MediaArchive
