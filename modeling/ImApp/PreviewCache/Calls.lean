import ImApp.PreviewCache.Mutations

/-!
The three operations of the cache. A call of `forget` or of `clear` makes the runs
in progress invalid, empties its part of the memory and puts its removals behind
every mutation asked for before it.
-/

namespace ImApp.PreviewCache

open List Bool Option
open JsonText (Text)

variable {s t : State} {platform : Platform}

section Launch

variable {key legacyKey : Key}

theorem launch_run_of_ne {r : Nat} (hr : r ≠ s.started + 1) :
    (s.launch key legacyKey).runs r = s.runs r := by
  simp [State.launch, hr]

theorem launch_run_new : (s.launch key legacyKey).runs (s.started + 1) =
    { key := key, legacyKey := legacyKey, valid := true, stage := .queued s.tasks.length } := by
  simp [State.launch]

theorem started_ne {r : Nat} (h : Started s r) : r ≠ s.started + 1 := by
  have hle := h.2
  omega

theorem launch_started {r : Nat} (h : Started (s.launch key legacyKey) r) :
    r = s.started + 1 ∨ Started s r := by
  have hin : 1 ≤ r ∧ r ≤ s.started + 1 := h
  by_cases hr : r = s.started + 1
  · exact .inl hr
  exact .inr ⟨hin.1, by omega⟩

theorem started_launch {r : Nat} (h : Started s r) : Started (s.launch key legacyKey) r :=
  ⟨h.1, h.2.trans (Nat.le_succ _)⟩

theorem Scheduled.launch (h : Scheduled s) : Scheduled (s.launch key legacyKey) where
  done_le := h.done_le
  running := h.running
  queued := by
    intro r m hm
    by_cases hr : r = s.started + 1
    · subst hr
      rw [launch_run_new] at hm
      rw [← some.inj hm]
      exact ⟨h.done_le, le_refl _, h.running⟩
    rw [launch_run_of_ne hr] at hm
    exact h.queued r m hm
  awaiting := by
    intro r n hn
    by_cases hr : r = s.started + 1
    · subst hr
      rw [launch_run_new] at hn
      cases hn
    rw [launch_run_of_ne hr] at hn
    exact h.awaiting r n hn
  unstarted := by
    intro r hnot
    have hr : r ≠ s.started + 1 := by
      rintro rfl
      exact hnot ⟨Nat.le_add_left _ _, le_refl _⟩
    rw [launch_run_of_ne hr]
    exact h.unstarted r (fun hin => hnot (started_launch hin))
  asked := by
    intro c hc
    obtain ⟨htask, hpre⟩ := h.asked c hc
    exact ⟨htask, hpre.trans (Nat.le_succ _)⟩
  after := by
    intro c hc r hin hpre
    cases launch_started hin with
    | inl hnew =>
      subst hnew
      rw [launch_run_new]
      constructor
      · intro m hm
        rw [← some.inj hm]
        exact (List.getElem?_eq_some_iff.mp (h.asked c hc).1).1
      intro hnone
      cases hnone
    | inr hold =>
      rw [launch_run_of_ne (started_ne hold)]
      exact h.after c hc r hold hpre
  ahead := by
    intro c hc r m hle hm
    have hpre := (h.asked c hc).2
    rw [launch_run_of_ne (by omega)] at hm
    exact h.ahead c hc r m hle hm

theorem Guarded.launch (h : Guarded s) (hs : Scheduled s) (hfree : s.pending key = none) :
    Guarded (s.launch key legacyKey) where
  pending := by
    intro k r hr
    by_cases hk : k = key
    · subst hk
      have hnew : r = s.started + 1 := by simpa [State.launch] using hr.symm
      subst hnew
      rw [launch_run_new]
      exact ⟨⟨Nat.le_add_left _ _, le_refl _⟩, rfl, rfl⟩
    have hold : s.pending k = some r := by simpa [State.launch, hk] using hr
    obtain ⟨hin, hkey, hvalid⟩ := h.pending k r hold
    rw [launch_run_of_ne (started_ne hin)]
    exact ⟨started_launch hin, hkey, hvalid⟩
  live := by
    intro r hvalid hlive
    by_cases hr : r = s.started + 1
    · subst hr
      rw [launch_run_new]
      simp [State.launch]
    rw [launch_run_of_ne hr] at hvalid hlive ⊢
    have hpend := h.live r hvalid hlive
    have hk : (s.runs r).key ≠ key := by
      intro heq
      rw [heq, hfree] at hpend
      cases hpend
    simpa [State.launch, hk] using hpend
  fenced := by
    intro c hc r hcovers hle hvalid
    have hpre := (hs.asked c hc).2
    rw [launch_run_of_ne (by omega)] at hcovers hvalid ⊢
    exact h.fenced c hc r hcovers hle hvalid
  cause := by
    intro r hin hvalid
    cases launch_started hin with
    | inl hnew =>
      subst hnew
      rw [launch_run_new] at hvalid
      cases hvalid
    | inr hold =>
      rw [launch_run_of_ne (started_ne hold)] at hvalid ⊢
      exact h.cause r hold hvalid
  stale := by
    intro c hc r hr
    have hpre := (hs.asked c hc).2
    have hstale := h.stale c hc r hr
    rw [launch_run_of_ne (by omega)]
    exact hstale
  apart := by
    intro a b ha hb hab hkey hlive
    have hle : b ≤ s.started + 1 := hb.2
    have ha' : Started s a := ⟨ha.1, by omega⟩
    rw [launch_run_of_ne (started_ne ha')] at hkey hlive ⊢
    cases launch_started hb with
    | inr hold =>
      rw [launch_run_of_ne (started_ne hold)] at hkey
      exact h.apart a b ha' hold hab hkey hlive
    | inl hnew =>
      subst hnew
      rw [launch_run_new] at hkey
      -- the earlier run left `pending` unfinished, so a call made it invalid
      have hinvalid : (s.runs a).valid = false := by
        by_contra hne
        have hvalid : (s.runs a).valid = true := by simpa using hne
        have hpend := h.live a hvalid hlive
        rw [hkey, hfree] at hpend
        cases hpend
      obtain ⟨c, hc, hcovers, hpre⟩ := h.cause a ha' hinvalid
      have hstarted := (hs.asked c hc).2
      exact ⟨c, hc, hcovers, hpre, by omega⟩
  upgraded := by
    intro r row n hstage
    by_cases hr : r = s.started + 1
    · subst hr
      rw [launch_run_new] at hstage
      cases hstage
    rw [launch_run_of_ne hr] at hstage ⊢
    exact h.upgraded r row n hstage

theorem Known.launch {k : Key} {p : Nat} (h : Known s k p) :
    Known (s.launch key legacyKey) k p := by
  apply h.mono (t := s.launch key legacyKey) (Nat.le_succ _)
  · intro r hr
    rw [launch_run_of_ne (started_ne hr)]
  intro r hr hq
  rw [launch_run_of_ne (started_ne hr)]
  exact hq

theorem Stocked.launch (h : Stocked s) : Stocked (s.launch key legacyKey) := { h with
    memory := fun entry hentry =>
      ⟨(h.memory entry hentry).1.launch, (h.memory entry hentry).2.launch⟩
    held := by
      intro r row hrow
      by_cases hr : r = s.started + 1
      · subst hr
        rw [launch_run_new] at hrow
        cases hrow
      rw [launch_run_of_ne hr] at hrow
      have hheld := h.held r row hrow
      constructor
      · exact hheld.holder_le
      · rw [launch_run_of_ne hr]
        exact hheld.holder.launch
      · rw [launch_run_of_ne hr]
        exact hheld.producer.launch
      rw [launch_run_of_ne hr]
      exact hheld.fresh
    disk := fun k row hrow => (h.disk k row hrow).launch }

theorem Queued.writer_started (h : Queued s) (hs : Scheduled s) {n r : Nat} {row : Asset}
    (hn : s.done ≤ n) (htask : s.tasks[n]? = some (.write r row)) : Started s r := by
  apply hs.started_of_ne
  intro hthrew
  cases h.writes n r row hn htask with
  | inl hstage | inr hstage =>
    rw [hstage] at hthrew
    cases hthrew

theorem Queued.launch (h : Queued s) (hs : Scheduled s) : Queued (s.launch key legacyKey) where
  writes := by
    intro n r row hn htask
    rw [launch_run_of_ne (started_ne (h.writer_started hs hn htask))]
    exact h.writes n r row hn htask
  removes := by
    intro n r k hn htask
    obtain ⟨hin, hown⟩ := h.removes n r k hn htask
    rw [launch_run_of_ne (started_ne hin)]
    exact ⟨started_launch hin, hown⟩
  removesOld := by
    intro n r hn htask
    have hin := (h.removes n r _ hn htask).1
    rw [launch_run_of_ne (started_ne hin)] at htask ⊢
    obtain ⟨hdisk, hlater⟩ := h.removesOld n r hn htask
    refine ⟨hdisk, ?_⟩
    intro n' q row hn' htask' hkey hlt
    rw [launch_run_of_ne (started_ne (h.writer_started hs hn' htask'))] at hkey
    exact hlater n' q row hn' htask' hkey hlt
  writing := by
    intro r row hcur
    obtain ⟨htask, hcalls⟩ := h.writing r row hcur
    rw [launch_run_of_ne (started_ne (h.writer_started hs (le_refl _) htask))]
    exact ⟨htask, hcalls⟩
  removing := h.removing
  gone := h.gone

theorem Logged.launch (h : Logged s) : Logged (s.launch key legacyKey) := { h with
    dropped := fun entry hentry => (h.dropped entry hentry).trans (Nat.le_succ _)
    downloads := by
      intro r hr
      obtain ⟨hin, hfetched⟩ := h.downloads r hr
      rw [launch_run_of_ne (started_ne hin)]
      exact ⟨started_launch hin, hfetched⟩ }

theorem launch_sound {owner url : Text} (h : Sound platform s)
    (hkey : key = previewMediaCacheKey platform owner url)
    (hlegacy : legacyKey = mediaCacheLegacyKey owner url) (hfree : s.pending key = none) :
    Sound platform (s.launch key legacyKey) where
  scheduled := h.scheduled.launch
  guarded := h.guarded.launch h.scheduled hfree
  stocked := h.stocked.launch
  queued := h.queued.launch h.scheduled
  logged := h.logged.launch
  keyed := {
    runs := by
      intro r hin
      cases launch_started hin with
      | inl hnew =>
        subst hnew
        rw [launch_run_new]
        exact ⟨owner, url, hkey, hlegacy⟩
      | inr hold =>
        rw [launch_run_of_ne (started_ne hold)]
        exact h.keyed.runs r hold
    calls := h.keyed.calls
    memory := h.keyed.memory }
  fits := h.fits

end Launch

theorem get_sound {url owner : Text} (h : Sound platform s) :
    Sound platform (s.get platform url owner) := by
  unfold State.get
  dsimp only
  split
  · exact h
  split
  case h_1 => exact h
  case h_2 hfree => exact launch_sound h rfl rfl hfree

theorem settled_sound {r : Nat} (h : Sound platform s) (hstep : s.settled r = some t) :
    Sound platform t := by
  unfold State.settled at hstep
  split at hstep
  case isFalse => cases hstep
  case isTrue hover =>
    cases hstep
    split
    case isFalse => exact h
    case isTrue hown =>
      exact {
        scheduled := ⟨h.scheduled.done_le, h.scheduled.running, h.scheduled.queued,
          h.scheduled.awaiting, h.scheduled.unstarted, h.scheduled.asked,
          h.scheduled.after, h.scheduled.ahead⟩
        guarded := {
          pending := by
            intro k q hq
            by_cases hk : k = (s.runs r).key
            · simp [hk] at hq
            exact h.guarded.pending k q (by simpa [hk] using hq)
          live := by
            intro q hvalid hlive
            have hpend := h.guarded.live q hvalid hlive
            have hk : (s.runs q).key ≠ (s.runs r).key := by
              intro heq
              rw [heq, hown] at hpend
              have hover' := hover
              rw [some.inj hpend, hlive] at hover'
              cases hover'
            simpa [hk] using hpend
          fenced := h.guarded.fenced
          cause := h.guarded.cause
          stale := h.guarded.stale
          apart := h.guarded.apart
          upgraded := h.guarded.upgraded }
        stocked := ⟨h.stocked.memory, h.stocked.memoryFresh,
          fun q row hrow => ⟨(h.stocked.held q row hrow).holder_le,
            (h.stocked.held q row hrow).holder, (h.stocked.held q row hrow).producer,
            (h.stocked.held q row hrow).fresh⟩,
          h.stocked.disk, h.stocked.diskFresh⟩
        queued := ⟨h.queued.writes, h.queued.removes, h.queued.removesOld,
          h.queued.writing, h.queued.removing, h.queued.gone⟩
        logged := ⟨h.logged.dropped, h.logged.spared, h.logged.downloads, h.logged.once⟩
        keyed := ⟨h.keyed.runs, h.keyed.calls, h.keyed.memory⟩
        fits := h.fits }

section Invalidate

variable {keys : Option (Key × Key)}

/-- The call that `invalidate` records. -/
def State.callOf (s : State) (keys : Option (Key × Key)) : Call where
  keys := keys
  before := s.started
  task := s.tasks.length
  stale := s.runIds.filter fun r => covers keys (s.runs r).key && !(s.runs r).stage.isOver

@[simp] theorem invalidate_key (r : Nat) : ((s.invalidate keys).runs r).key = (s.runs r).key := by
  simp only [State.invalidate]
  split <;> rfl

@[simp] theorem invalidate_legacyKey (r : Nat) :
    ((s.invalidate keys).runs r).legacyKey = (s.runs r).legacyKey := by
  simp only [State.invalidate]
  split <;> rfl

@[simp] theorem invalidate_stage (r : Nat) :
    ((s.invalidate keys).runs r).stage = (s.runs r).stage := by
  simp only [State.invalidate]
  split <;> rfl

theorem invalidate_valid {r : Nat} : ((s.invalidate keys).runs r).valid = true ↔
    (s.runs r).valid = true ∧
      ¬(covers keys (s.runs r).key = true ∧ s.pending (s.runs r).key = some r) := by
  simp only [State.invalidate]
  split
  case isTrue hmet => simp [hmet]
  case isFalse hnot => simp [hnot]

theorem mem_calls {c : Call} (h : c ∈ (s.invalidate keys).calls) :
    c ∈ s.calls ∨ c = s.callOf keys := by
  rcases mem_append.mp h with hold | hnew
  · exact .inl hold
  exact .inr (mem_singleton.mp hnew)

theorem invalidate_task {n : Nat} {task : Task} (h : s.tasks[n]? = some task) :
    (s.invalidate keys).tasks[n]? = some task := by
  simp only [State.invalidate]
  rw [getElem?_append_left (List.getElem?_eq_some_iff.mp h).1]
  exact h

theorem task_of_invalidate {n : Nat} {task : Task}
    (h : (s.invalidate keys).tasks[n]? = some task) (hrun : ∀ keys, mutation keys ≠ task) :
    s.tasks[n]? = some task := by
  simp only [State.invalidate] at h
  by_cases hn : n < s.tasks.length
  · rwa [getElem?_append_left hn] at h
  rw [getElem?_append_right (by omega)] at h
  have hmem := mem_singleton.mp (mem_of_getElem? h)
  exact (hrun keys hmem.symm).elim

theorem Guarded.invalid_after {r : Nat} (h : Guarded s)
    (hcovers : covers keys (s.runs r).key = true) (hlive : (s.runs r).stage.isOver = false) :
    ((s.invalidate keys).runs r).valid = false := by
  rw [eq_false_iff]
  intro hvalid
  obtain ⟨hold, hnot⟩ := invalidate_valid.mp hvalid
  exact hnot ⟨hcovers, h.live r hold hlive⟩

theorem Scheduled.invalidate (h : Scheduled s) : Scheduled (s.invalidate keys) where
  done_le := by
    have hle := h.done_le
    simp only [State.invalidate, length_append]
    omega
  running := by
    intro hcur
    have hlt := h.running hcur
    simp only [State.invalidate, length_append]
    omega
  queued := by
    intro r m hm
    rw [invalidate_stage] at hm
    obtain ⟨hdone, hlen, hcur⟩ := h.queued r m hm
    refine ⟨hdone, ?_, hcur⟩
    simp only [State.invalidate, length_append]
    omega
  awaiting := by
    intro r n hn
    rw [invalidate_stage] at hn
    obtain ⟨hlen, hdone⟩ := h.awaiting r n hn
    refine ⟨?_, hdone⟩
    simp only [State.invalidate, length_append]
    omega
  unstarted := by
    intro r hr
    rw [invalidate_stage]
    exact h.unstarted r hr
  asked := by
    intro c hc
    cases mem_calls hc with
    | inl hold =>
      obtain ⟨htask, hpre⟩ := h.asked c hold
      exact ⟨invalidate_task htask, hpre⟩
    | inr hnew =>
      rw [hnew]
      refine ⟨?_, le_refl _⟩
      simp [State.invalidate, State.callOf]
  after := by
    intro c hc r hin hpre
    rw [invalidate_stage]
    cases mem_calls hc with
    | inl hold => exact h.after c hold r hin hpre
    | inr hnew =>
      rw [hnew] at hpre
      have hle : r ≤ s.started := hin.2
      have hlt : s.started < r := hpre
      omega
  ahead := by
    intro c hc r m hle hm
    rw [invalidate_stage] at hm
    cases mem_calls hc with
    | inl hold => exact h.ahead c hold r m hle hm
    | inr hnew =>
      rw [hnew]
      exact (h.queued r m hm).2.1

theorem Guarded.invalidate (h : Guarded s) (hs : Scheduled s) : Guarded (s.invalidate keys) where
  pending := by
    intro k r hr
    simp only [State.invalidate] at hr
    split at hr
    case isTrue => cases hr
    case isFalse hnot =>
      obtain ⟨hin, hkey, hvalid⟩ := h.pending k r hr
      rw [invalidate_key, invalidate_valid, hkey]
      exact ⟨hin, rfl, hvalid, fun hmet => hnot hmet.1⟩
  live := by
    intro r hvalid hlive
    rw [invalidate_stage] at hlive
    obtain ⟨hold, hnot⟩ := invalidate_valid.mp hvalid
    have hpend := h.live r hold hlive
    rw [invalidate_key]
    simp only [State.invalidate]
    rw [if_neg (fun hcovers => hnot ⟨hcovers, hpend⟩)]
    exact hpend
  fenced := by
    intro c hc r hcovers hle hvalid
    rw [invalidate_key] at hcovers
    rw [invalidate_stage]
    cases mem_calls hc with
    | inl hold => exact h.fenced c hold r hcovers hle (invalidate_valid.mp hvalid).1
    | inr hnew =>
      rw [hnew] at hcovers
      have hcovers : covers keys (s.runs r).key = true := hcovers
      by_contra hover
      have hinvalid := h.invalid_after hcovers (Bool.eq_false_iff.mpr hover)
      rw [hvalid] at hinvalid
      cases hinvalid
  cause := by
    intro r hin hvalid
    rw [invalidate_key]
    by_cases hold : (s.runs r).valid = true
    · have hmet : covers keys (s.runs r).key = true := by
        by_contra hnot
        have hval : ((s.invalidate keys).runs r).valid = true :=
          invalidate_valid.mpr ⟨hold, fun hmet => hnot hmet.1⟩
        rw [hvalid] at hval
        cases hval
      exact ⟨s.callOf keys, mem_append_right _ (mem_singleton.mpr rfl), hmet, hin.2⟩
    obtain ⟨c, hc, hcause⟩ := h.cause r hin (Bool.eq_false_iff.mpr hold)
    exact ⟨c, mem_append_left _ hc, hcause⟩
  stale := by
    intro c hc r hr
    rw [invalidate_key, invalidate_stage]
    cases mem_calls hc with
    | inl hold =>
      obtain ⟨hle, hcovers, hvalid, hreturned⟩ := h.stale c hold r hr
      refine ⟨hle, hcovers, ?_, hreturned⟩
      rw [eq_false_iff]
      intro hval
      rw [(invalidate_valid.mp hval).1] at hvalid
      cases hvalid
    | inr hnew =>
      rw [hnew] at hr ⊢
      obtain ⟨hin, hmet⟩ := mem_filter.mp hr
      simp only [and_eq_true, not_eq_true'] at hmet
      refine ⟨(mem_runIds.mp hin).2, hmet.1, h.invalid_after hmet.1 hmet.2, ?_⟩
      intro row hrow
      rw [hrow] at hmet
      cases hmet.2
  apart := by
    intro a b ha hb hab hkey hlive
    rw [invalidate_key, invalidate_key] at hkey
    rw [invalidate_stage] at hlive
    rw [invalidate_key]
    obtain ⟨c, hc, hapart⟩ := h.apart a b ha hb hab hkey hlive
    exact ⟨c, mem_append_left _ hc, hapart⟩
  upgraded := by
    intro r row n hstage c hc hcovers hle
    rw [invalidate_stage] at hstage
    rw [invalidate_key] at hcovers
    cases mem_calls hc with
    | inl hold => exact h.upgraded r row n hstage c hold hcovers hle
    | inr hnew =>
      rw [hnew]
      exact (hs.awaiting r n (by rw [hstage]; rfl)).1

theorem Known.invalidate {k : Key} {p : Nat} (h : Known s k p) : Known (s.invalidate keys) k p := by
  apply h.mono (t := s.invalidate keys) (le_refl _)
  · intro r _
    rw [invalidate_key]
  intro r _ hq
  rw [invalidate_stage]
  exact hq

theorem Stocked.invalidate (h : Stocked s) (hs : Scheduled s) : Stocked (s.invalidate keys) where
  memory := by
    intro entry hentry
    obtain ⟨hholder, hproducer⟩ := h.memory entry (mem_filter.mp hentry).1
    exact ⟨hholder.invalidate, hproducer.invalidate⟩
  memoryFresh := by
    intro entry hentry c hc hcovers hvoided
    obtain ⟨hmem, hkept⟩ := mem_filter.mp hentry
    cases mem_calls hc with
    | inl hold => exact h.memoryFresh entry hmem c hold hcovers hvoided
    | inr hnew =>
      rw [hnew] at hcovers
      have hcovers : covers keys entry.1 = true := hcovers
      rw [hcovers] at hkept
      cases hkept
  held := by
    intro r row hrow
    rw [invalidate_stage] at hrow
    have hheld := h.held r row hrow
    constructor
    · exact hheld.holder_le
    · rw [invalidate_key]
      exact hheld.holder.invalidate
    · rw [invalidate_key]
      exact hheld.producer.invalidate
    intro c hc hcovers hvoided hpre
    rw [invalidate_key] at hcovers
    cases mem_calls hc with
    | inl hold => exact hheld.fresh c hold hcovers hvoided hpre
    | inr hnew =>
      have hin : Started s r := by
        apply hs.started_of_ne
        intro hthrew
        rw [hthrew] at hrow
        cases hrow
      rw [hnew] at hpre
      have hlt : s.started < r := hpre
      have hle := hin.2
      omega
  disk := fun k row hrow => (h.disk k row hrow).invalidate
  diskFresh := by
    intro k row hrow c hc hclears hvoided hdone
    cases mem_calls hc with
    | inl hold => exact h.diskFresh k row hrow c hold hclears hvoided hdone
    | inr hnew =>
      rw [hnew] at hdone
      have hlt : s.tasks.length < s.done := hdone
      have hle := hs.done_le
      omega

theorem Queued.invalidate (h : Queued s) (hs : Scheduled s) : Queued (s.invalidate keys) where
  writes := by
    intro n r row hn htask
    rw [invalidate_stage]
    exact h.writes n r row hn (task_of_invalidate htask fun k => mutation_ne_write k r row)
  removes := by
    intro n r k hn htask
    rw [invalidate_key, invalidate_legacyKey]
    exact h.removes n r k hn
      (task_of_invalidate htask fun keys => by cases keys <;> simp [mutation])
  removesOld := by
    intro n r hn htask
    rw [invalidate_key] at htask ⊢
    obtain ⟨hdisk, hlater⟩ := h.removesOld n r hn
      (task_of_invalidate htask fun keys => by cases keys <;> simp [mutation])
    refine ⟨hdisk, ?_⟩
    intro n' q row hn' htask' hkey hlt
    rw [invalidate_key] at hkey
    exact hlater n' q row hn' (task_of_invalidate htask' fun k => mutation_ne_write k q row)
      hkey hlt
  writing := by
    intro r row hcur
    obtain ⟨htask, hcalls⟩ := h.writing r row hcur
    refine ⟨invalidate_task htask, ?_⟩
    intro c hc hcovers hle
    rw [invalidate_key] at hcovers
    cases mem_calls hc with
    | inl hold => exact hcalls c hold hcovers hle
    | inr hnew =>
      rw [hnew]
      exact (List.getElem?_eq_some_iff.mp htask).1
  removing := fun r keys' hcur k hk => invalidate_task (h.removing r keys' hcur k hk)
  gone := by
    intro op hcur c hc hnow hvoided k hclears
    cases mem_calls hc with
    | inl hold => exact h.gone op hcur c hold hnow hvoided k hclears
    | inr hnew =>
      rw [hnew] at hnow
      have heq : s.tasks.length = s.done := hnow
      have hop : s.current = some op := hcur
      have hlt := hs.running (by rw [hop]; rfl)
      omega

theorem Logged.invalidate (h : Logged s) : Logged (s.invalidate keys) := { h with
    spared := by
      intro c hc r hr p hentry
      cases mem_calls hc with
      | inl hold => exact h.spared c hold r hr p hentry
      | inr hnew =>
        rw [hnew]
        exact h.dropped (r, p) hentry
    downloads := by
      intro r hr
      rw [invalidate_stage]
      exact h.downloads r hr }

theorem invalidate_sound (h : Sound platform s)
    (hkeys : ∀ own legacy, keys = some (own, legacy) → ∃ owner url,
      own = previewMediaCacheKey platform owner url ∧
        legacy = mediaCacheLegacyKey owner url) : Sound platform (s.invalidate keys) where
  scheduled := h.scheduled.invalidate
  guarded := h.guarded.invalidate h.scheduled
  stocked := h.stocked.invalidate h.scheduled
  queued := h.queued.invalidate h.scheduled
  logged := h.logged.invalidate
  keyed := {
    runs := by
      intro r hr
      rw [invalidate_key, invalidate_legacyKey]
      exact h.keyed.runs r hr
    calls := by
      intro c hc own legacy hown
      cases mem_calls hc with
      | inl hold => exact h.keyed.calls c hold own legacy hown
      | inr hnew =>
        rw [hnew] at hown
        exact hkeys own legacy hown
    memory := fun entry hentry => h.keyed.memory entry (mem_filter.mp hentry).1 }
  fits := h.fits.sublist filter_sublist

end Invalidate

theorem forget_sound {url owner : Text} (h : Sound platform s) :
    Sound platform (s.forget platform url owner) := by
  unfold State.forget
  dsimp only
  split
  · exact h
  apply invalidate_sound h
  intro own legacy hpair
  cases hpair
  exact ⟨owner, _, rfl, rfl⟩

theorem clear_sound (h : Sound platform s) : Sound platform s.clear := by
  apply invalidate_sound h
  intro own legacy hpair
  cases hpair

end ImApp.PreviewCache
