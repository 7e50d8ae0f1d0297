import ImApp.PreviewCache.Moves

/-!
Every continuation of `load` is a move that keeps the invariant. The checks of
`valid` in the code are what the moves ask for: a run returns a row, keeps it in
memory or asks for a removal only where it is still valid.
-/

namespace ImApp.PreviewCache

open Option

variable {s : State} {platform : Platform} {r : Nat} {stage : Stage} {row : Asset}
  {memory : List (Key × Asset)} {gone : List Nat}

/-- The await of the run is over. -/
structure Ready (s : State) (r : Nat) : Prop where
  live : (s.runs r).stage.isOver = false
  due : ∀ m, (s.runs r).stage.queuedAt = some m → m ≤ s.done
  free : ∀ n, (s.runs r).stage.awaits = some n → n < s.done

namespace Ready

theorem of_queued {m : Nat} (hstage : (s.runs r).stage = .queued m) (hm : m ≤ s.done) :
    Ready s r := by
  constructor <;> rw [hstage]
  · rfl
  · intro m' hm'
    rwa [← some.inj hm']
  intro n hn
  cases hn

theorem of_mutation {n : Nat} (hawaits : (s.runs r).stage.awaits = some n) (hn : n < s.done) :
    Ready s r := by
  constructor
  · cases hstage : (s.runs r).stage <;> simp [hstage, Stage.awaits, Stage.isOver] at hawaits ⊢
  · intro m hm
    cases hstage : (s.runs r).stage <;> simp [hstage, Stage.awaits, Stage.queuedAt] at hawaits hm
  intro n' hn'
  rw [hawaits] at hn'
  rwa [← some.inj hn']

theorem of_running (hlive : (s.runs r).stage.isOver = false)
    (hqueued : (s.runs r).stage.queuedAt = none) (hawaits : (s.runs r).stage.awaits = none) :
    Ready s r := by
  refine ⟨hlive, ?_, ?_⟩
  · intro m hm
    rw [hqueued] at hm
    cases hm
  intro n hn
  rw [hawaits] at hn
  cases hn

section

variable (h : Ready s r)
include h

theorem started (hs : Scheduled s) : Started s r := by
  by_contra hnot
  have hlive := h.live
  rw [hs.unstarted r hnot] at hlive
  cases hlive

theorem go (hsound : Sound platform s) (hentered : stage.queuedAt = none)
    (hawaits : stage.awaits = none) (hreturned : ∀ row, stage = .returned row →
      (s.runs r).valid = true) (hheld : ∀ row, stage.held = some row → Held s r row)
    (hfetched : (s.runs r).stage.isFetched = true →
      stage.isFetched = true ∧ stage ≠ .downloading) : Sound platform (s.go r stage) := by
  apply Move.sound _ hsound
  exact { h with
    entered := hentered
    awaits := by
      intro n hn
      rw [hawaits] at hn
      cases hn
    returned := hreturned
    upgrading := by
      rintro row n rfl
      cases hawaits
    held := hheld
    asked := .none
    kept := fun entry hentry => .inl hentry
    fits := hsound.fits
    gone := by
      intro p hp
      cases hp
    fetched := hfetched }

theorem stop (hsound : Sound platform s) (hheld : Held s r row) :
    Sound platform (s.stop r row) := by
  apply Move.sound _ hsound
  exact { h with
    entered := rfl
    awaits := by
      intro n hn
      cases hn
    returned := by
      intro row hrow
      cases hrow
    upgrading := by
      intro row n hrow
      cases hrow
    held := by
      intro row hrow
      cases hrow
    asked := .none
    kept := fun entry hentry => .inl hentry
    fits := hsound.fits
    gone := by
      intro p hp
      rw [List.mem_singleton.mp hp]
      exact ⟨hheld.holder.le_started, .inr hheld.holder_le⟩
    fetched := by
      intro _
      exact ⟨rfl, by simp⟩ }

theorem ask {next : Nat → Stage} {task : Task} (hsound : Sound platform s)
    (hentered : (next s.tasks.length).queuedAt = none)
    (hawaits : (next s.tasks.length).awaits = some s.tasks.length)
    (hupgrading : ∀ row n, next s.tasks.length = .upgrading row n → (s.runs r).valid = true)
    (hheld : ∀ row, (next s.tasks.length).held = some row → Held s r row)
    (hasked : Asked s r (next s.tasks.length) [task])
    (hfetched : (s.runs r).stage.isFetched = true →
      (next s.tasks.length).isFetched = true ∧ next s.tasks.length ≠ .downloading) :
    Sound platform (s.ask r next task) := by
  apply Move.sound _ hsound
  exact { h with
    entered := hentered
    awaits := by
      intro n hn
      rw [hawaits] at hn
      exact ⟨(some.inj hn).symm, by simp⟩
    returned := by
      intro row hrow
      rw [hrow] at hawaits
      cases hawaits
    upgrading := hupgrading
    held := hheld
    asked := hasked
    kept := fun entry hentry => .inl hentry
    fits := hsound.fits
    gone := by
      intro p hp
      cases hp
    fetched := hfetched }

theorem complete (hsound : Sound platform s) (hheld : Held s r row)
    (keep : Bool) : Sound platform (s.complete r row keep) := by
  unfold State.complete
  split
  case isTrue => exact h.stop hsound hheld
  case isFalse hvalid =>
    have hvalid : (s.runs r).valid = true := by simpa using hvalid
    split
    case isFalse =>
      apply h.go hsound rfl rfl (fun _ _ => hvalid)
      · intro row hrow
        cases hrow
      intro _
      exact ⟨rfl, by simp⟩
    case isTrue =>
      obtain ⟨hfits, hkept, hgone⟩ := remember_spec (s.runs r).key row hsound.fits
      apply Move.sound _ hsound
      exact { h with
        entered := rfl
        awaits := by
          intro n hn
          cases hn
        returned := fun _ _ => hvalid
        upgrading := by
          intro row n hrow
          cases hrow
        held := by
          intro row hrow
          cases hrow
        asked := .none
        kept := by
          intro entry hentry
          cases hkept entry hentry with
          | inl hold => exact .inl hold
          | inr hnew =>
            rw [hnew]
            exact .inr ⟨rfl, hvalid, hheld⟩
        fits := hfits
        gone := by
          intro p hp
          obtain ⟨asset, hasset, rfl⟩ := List.mem_map.mp hp
          obtain ⟨k, hk⟩ := hgone asset hasset
          exact ⟨(hsound.stocked.memory _ hk).1.le_started, .inl hvalid⟩
        fetched := by
          intro _
          exact ⟨rfl, by simp⟩ }

theorem discard (hsound : Sound platform s) (hheld : Held s r row)
    (hvalid : (s.runs r).valid = true) (hnot : (s.runs r).stage.isFetched = false)
    (legacy : Bool) : Sound platform (s.discard r legacy row) := by
  apply Move.sound _ hsound
  exact { h with
    entered := rfl
    awaits := by
      intro n hn
      exact ⟨(some.inj hn).symm, by simp⟩
    returned := by
      intro row hrow
      cases hrow
    upgrading := by
      intro row n hrow
      cases hrow
    held := by
      intro row hrow
      cases hrow
    asked := by
      apply Asked.remove
      · cases legacy with
        | true => exact .inr rfl
        | false => exact .inl rfl
      intro p hp
      exact hsound.known_le hvalid h.live hp
    kept := fun entry hentry => .inl ((without_sublist _ _).subset hentry)
    fits := hsound.fits.sublist (without_sublist _ _)
    gone := by
      intro p hp
      obtain ⟨asset, hasset, rfl⟩ := List.mem_map.mp hp
      refine ⟨?_, .inl hvalid⟩
      rcases List.mem_append.mp hasset with hold | hself
      · have hmem := mem_of_lookup (Option.mem_toList.mp hold)
        exact (hsound.stocked.memory _ hmem).1.le_started
      rw [List.mem_singleton.mp hself]
      exact hheld.holder.le_started
    fetched := by
      intro hfetched
      rw [hnot] at hfetched
      cases hfetched }

theorem miss (hsound : Sound platform s)
    (hnot : (s.runs r).stage.isFetched = false) : Sound platform (s.miss r) := by
  unfold State.miss
  split
  · apply h.go hsound rfl rfl
    · intro row hrow
      cases hrow
    · intro row hrow
      cases hrow
    intro _
    exact ⟨rfl, by simp⟩
  apply h.go hsound rfl rfl
  · intro row hrow
    cases hrow
  · intro row hrow
    cases hrow
  intro hfetched
  rw [hnot] at hfetched
  cases hfetched

theorem fallBack (hsound : Sound platform s)
    (hnot : (s.runs r).stage.isFetched = false) (legacy : Bool) :
    Sound platform (s.fallBack r legacy) := by
  unfold State.fallBack
  split
  · apply h.go hsound rfl rfl
    · intro row hrow
      cases hrow
    · intro row hrow
      cases hrow
    intro hfetched
    rw [hnot] at hfetched
    cases hfetched
  exact h.miss hsound hnot

theorem hit (hsound : Sound platform s) (hheld : Held s r row)
    (hnot : (s.runs r).stage.isFetched = false) (legacy : Bool) :
    Sound platform (s.hit r legacy row) := by
  have hfetched : ∀ next : Stage, (s.runs r).stage.isFetched = true →
      next.isFetched = true ∧ next ≠ .downloading := by
    intro next hold
    rw [hnot] at hold
    cases hold
  unfold State.hit
  split
  case isTrue => exact h.stop hsound hheld
  case isFalse hvalid =>
    have hvalid : (s.runs r).valid = true := by simpa using hvalid
    split
    · apply h.ask hsound rfl rfl (fun _ _ _ => hvalid) _ _ (hfetched _)
      · intro row' hrow
        rw [← some.inj hrow]
        exact hheld
      exact .write row (.inl rfl)
    apply h.ask hsound rfl rfl (fun _ _ _ => hvalid) _ .touch (hfetched _)
    intro row' hrow
    rw [← some.inj hrow]
    exact hheld

theorem afterCheck (hsound : Sound platform s) (row : Option Asset)
    (hheld : ∀ asset, row = some asset → Held s r asset)
    (hnot : (s.runs r).stage.isFetched = false) (legacy fresh : Bool) :
    Sound platform (s.afterCheck r legacy row fresh) := by
  unfold State.afterCheck
  cases row with
  | none => exact h.fallBack hsound hnot legacy
  | some asset =>
    dsimp only
    split
    · exact h.hit hsound (hheld asset rfl) hnot legacy
    split
    case isTrue hvalid => exact h.discard hsound (hheld asset rfl) hvalid hnot legacy
    case isFalse => exact h.fallBack hsound hnot legacy

end

end Ready

section Actions

variable {t : State}

section

variable (h : Sound platform s)
include h

theorem held_of_memory {m : Nat} (hstage : (s.runs r).stage = .queued m)
    (hmem : ((s.runs r).key, row) ∈ s.memory) : Held s r row := by
  obtain ⟨hholder, hproducer⟩ := h.stocked.memory _ hmem
  exact {
    holder_le := h.known_le_queued (by rw [hstage]; rfl) hholder
    holder := hholder
    producer := hproducer
    fresh := fun c hc hcovers hvoided _ => h.stocked.memoryFresh _ hmem c hc hcovers hvoided }

theorem resume_sound (hstep : s.resume r = some t) : Sound platform t := by
  unfold State.resume at hstep
  split at hstep
  case h_1 ahead hstage =>
    split at hstep
    case isFalse => cases hstep
    case isTrue hdue =>
      cases hstep
      have hready := Ready.of_queued hstage hdue
      have hnot : (s.runs r).stage.isFetched = true → False := by
        rw [hstage]
        intro hfetched
        cases hfetched
      split
      case h_1 row hlook =>
        apply hready.go h rfl rfl
        · intro row' hrow
          cases hrow
        · intro row' hrow
          rw [← some.inj hrow]
          exact held_of_memory h hstage (mem_of_lookup hlook)
        exact fun hfetched => (hnot hfetched).elim
      case h_2 =>
        apply hready.go h rfl rfl
        · intro row' hrow
          cases hrow
        · intro row' hrow
          cases hrow
        exact fun hfetched => (hnot hfetched).elim
  case h_2 legacy row fresh hstage =>
    cases hstep
    have hready : Ready s r := by
      apply Ready.of_running <;> rw [hstage] <;> rfl
    apply hready.afterCheck h
    · intro asset hasset
      exact h.stocked.held r asset (by rw [hstage]; exact hasset)
    rw [hstage]
    rfl
  case h_3 legacy task hstage =>
    split at hstep
    case isFalse => cases hstep
    case isTrue htask =>
      cases hstep
      have hready : Ready s r := Ready.of_mutation (by rw [hstage]; rfl) htask
      exact hready.fallBack h (by rw [hstage]; rfl) legacy
  case h_4 row task hstage =>
    split at hstep
    case isFalse => cases hstep
    case isTrue htask =>
      cases hstep
      have hready : Ready s r := Ready.of_mutation (by rw [hstage]; rfl) htask
      -- the run may have been invalidated while its row was written
      apply hready.ask h rfl rfl
      · intro row' n hrow
        cases hrow
      · intro row' hrow
        rw [← some.inj hrow]
        exact h.stocked.held r row (by rw [hstage]; rfl)
      · exact .remove _ (.inr rfl) (fun p hp => h.known_le_upgraded hstage hp)
      rw [hstage]
      intro hfetched
      cases hfetched
  case h_5 row task hstage =>
    split at hstep
    case isFalse => cases hstep
    case isTrue htask =>
      cases hstep
      have hready : Ready s r := Ready.of_mutation (by rw [hstage]; rfl) htask
      apply hready.ask h rfl rfl
      · intro row' n hrow
        cases hrow
      · intro row' hrow
        rw [← some.inj hrow]
        exact h.stocked.held r row (by rw [hstage]; rfl)
      · exact .touch
      rw [hstage]
      intro hfetched
      cases hfetched
  case h_6 row task hstage | h_7 row task hstage =>
    split at hstep
    case isFalse => cases hstep
    case isTrue htask =>
      cases hstep
      have hready : Ready s r := Ready.of_mutation (by rw [hstage]; rfl) htask
      exact hready.complete h (h.stocked.held r row (by rw [hstage]; rfl)) _
  case h_8 => cases hstep

theorem known_self (hready : Ready s r)
    (hpast : (s.runs r).stage.queuedAt = none) : Known s (s.runs r).key r :=
  .inr ⟨hready.started h.scheduled, rfl, hpast⟩

theorem read_sound {ok : Bool} (hstep : s.read r ok = some t) : Sound platform t := by
  unfold State.read at hstep
  split at hstep
  case h_2 => cases hstep
  case h_1 legacy hstage =>
    cases hstep
    have hready : Ready s r := by
      apply Ready.of_running <;> rw [hstage] <;> rfl
    have hpast : (s.runs r).stage.queuedAt = none := by
      rw [hstage]
      rfl
    have hself := known_self h hready hpast
    have hnot : (s.runs r).stage.isFetched = true → False := by
      rw [hstage]
      intro hfetched
      cases hfetched
    split
    case h_1 =>
      apply hready.go h rfl rfl
      · intro row' hrow
        cases hrow
      · intro row' hrow
        cases hrow
      exact fun hfetched => (hnot hfetched).elim
    case h_2 row hread =>
      apply hready.go h rfl rfl
      · intro row' hrow
        cases hrow
      · intro row' hrow
        rw [← some.inj hrow]
        cases legacy with
        | true => exact ⟨le_refl r, hself, hself, fun c _ _ _ hlt => hlt⟩
        | false =>
          have hdisk : s.disk (s.runs r).key = some row := by
            cases ok with
            | true => exact hread
            | false => cases hread
          refine ⟨le_refl r, hself, h.stocked.disk _ row hdisk, ?_⟩
          intro c hc hcovers hvoided hlt
          have hclears : clears c.keys (s.runs r).key = true := by
            cases hkeys : c.keys with
            | none => rfl
            | some pair => simp_all [covers, clears]
          have hdone := (h.scheduled.after c hc r (hready.started h.scheduled) hlt).2 hpast
          exact h.stocked.diskFresh _ row hdisk c hc hclears hvoided hdone
      exact fun hfetched => (hnot hfetched).elim

theorem validated_sound {fresh : Bool}
    (hstep : s.validated r fresh = some t) : Sound platform t := by
  unfold State.validated at hstep
  split at hstep
  case h_2 => cases hstep
  case h_1 legacy row hstage =>
    cases hstep
    have hready : Ready s r := by
      apply Ready.of_running <;> rw [hstage] <;> rfl
    have hheld : Held s r row := h.stocked.held r row (by rw [hstage]; rfl)
    split
    · exact hready.stop h hheld
    apply hready.go h rfl rfl
    · intro row' hrow
      cases hrow
    · intro row' hrow
      rw [← some.inj hrow]
      exact hheld
    rw [hstage]
    intro hfetched
    cases hfetched

theorem downloaded_sound {result : Option State.Download}
    (hstep : s.downloaded r result = some t) : Sound platform t := by
  unfold State.downloaded at hstep
  split at hstep
  case h_2 => cases hstep
  case h_1 hstage =>
    cases hstep
    have hready : Ready s r := by
      apply Ready.of_running <;> rw [hstage] <;> rfl
    have hself := known_self h hready (by rw [hstage]; rfl)
    cases result with
    | none =>
      apply hready.go h rfl rfl
      · intro row' hrow
        cases hrow
      · intro row' hrow
        cases hrow
      intro _
      exact ⟨rfl, by simp⟩
    | some result =>
      obtain ⟨bytes, blob, remote⟩ := result
      have hheld : Held s r ⟨r, r, bytes, blob, remote⟩ :=
        ⟨le_refl r, hself, hself, fun c _ _ _ hlt => hlt⟩
      dsimp only
      split
      · exact hready.stop h hheld
      split
      · apply hready.ask h rfl rfl
        · intro row' n hrow
          cases hrow
        · intro row' hrow
          rw [← some.inj hrow]
          exact hheld
        · exact .write _ (.inr rfl)
        intro _
        exact ⟨rfl, by simp⟩
      exact hready.complete h hheld _

end

end Actions

end ImApp.PreviewCache
