import ImApp.PreviewCache.Invariant

/-!
A run of `load` goes from one await to the next. The condition `Move` says what
its next stage, its new mutations and its effect on the memory have to meet; it
keeps the invariant, and every continuation of the code meets it.
-/

namespace ImApp.PreviewCache

open List

variable {s : State} {platform : Platform} {r : Nat} {stage : Stage} {asked : List Task}
  {memory : List (Key × Asset)} {gone : List Nat}

section Fields

@[simp] theorem moved_started : (s.moved r stage asked memory gone).started = s.started := rfl
@[simp] theorem moved_pending : (s.moved r stage asked memory gone).pending = s.pending := rfl
@[simp] theorem moved_memory : (s.moved r stage asked memory gone).memory = memory := rfl
@[simp] theorem moved_tasks : (s.moved r stage asked memory gone).tasks = s.tasks ++ asked := rfl
@[simp] theorem moved_done : (s.moved r stage asked memory gone).done = s.done := rfl
@[simp] theorem moved_current : (s.moved r stage asked memory gone).current = s.current := rfl
@[simp] theorem moved_disk : (s.moved r stage asked memory gone).disk = s.disk := rfl
@[simp] theorem moved_calls : (s.moved r stage asked memory gone).calls = s.calls := rfl
@[simp] theorem moved_voided : (s.moved r stage asked memory gone).voided = s.voided := rfl

@[simp] theorem moved_key (q : Nat) :
    ((s.moved r stage asked memory gone).runs q).key = (s.runs q).key := by
  by_cases hq : q = r
  · subst hq
    simp [State.moved]
  simp [State.moved, hq]

@[simp] theorem moved_legacyKey (q : Nat) :
    ((s.moved r stage asked memory gone).runs q).legacyKey = (s.runs q).legacyKey := by
  by_cases hq : q = r
  · subst hq
    simp [State.moved]
  simp [State.moved, hq]

@[simp] theorem moved_valid (q : Nat) :
    ((s.moved r stage asked memory gone).runs q).valid = (s.runs q).valid := by
  by_cases hq : q = r
  · subst hq
    simp [State.moved]
  simp [State.moved, hq]

theorem moved_stage (q : Nat) : ((s.moved r stage asked memory gone).runs q).stage =
    if q = r then stage else (s.runs q).stage := by
  by_cases hq : q = r
  · subst hq
    simp [State.moved]
  simp [State.moved, hq]

@[simp] theorem moved_stage_self : ((s.moved r stage asked memory gone).runs r).stage = stage := by
  simp [moved_stage]

theorem moved_stage_of_ne {q : Nat} (hq : q ≠ r) :
    ((s.moved r stage asked memory gone).runs q).stage = (s.runs q).stage := by
  simp [moved_stage, hq]

@[simp] theorem moved_isStarted (q : Nat) :
    Started (s.moved r stage asked memory gone) q ↔ Started s q := Iff.rfl

end Fields

/-- The mutations that a run may ask for. -/
inductive Asked (s : State) (r : Nat) (stage : Stage) : List Task → Prop
  | none : Asked s r stage []
  | touch : Asked s r stage [.touch r]
  | write (row : Asset)
      (waits : stage = .upgrading row s.tasks.length ∨ stage = .writing row s.tasks.length) :
      Asked s r stage [.write r row]
  | remove (key : Key) (own : key = (s.runs r).key ∨ key = (s.runs r).legacyKey)
      (old : ∀ p, Known s (s.runs r).key p → p ≤ r) : Asked s r stage [.remove r key]

structure Move (s : State) (r : Nat) (stage : Stage) (asked : List Task)
    (memory : List (Key × Asset)) (gone : List Nat) : Prop where
  live : (s.runs r).stage.isOver = false
  due : ∀ m, (s.runs r).stage.queuedAt = some m → m ≤ s.done
  free : ∀ n, (s.runs r).stage.awaits = some n → n < s.done
  entered : stage.queuedAt = none
  awaits : ∀ n, stage.awaits = some n → n = s.tasks.length ∧ asked ≠ []
  returned : ∀ row, stage = .returned row → (s.runs r).valid = true
  upgrading : ∀ row n, stage = .upgrading row n → (s.runs r).valid = true
  held : ∀ row, stage.held = some row → Held s r row
  asked : Asked s r stage asked
  kept : ∀ entry ∈ memory, entry ∈ s.memory ∨
    entry.1 = (s.runs r).key ∧ (s.runs r).valid = true ∧ Held s r entry.2
  fits : Fits memory
  gone : ∀ p ∈ gone, p ≤ s.started ∧ ((s.runs r).valid = true ∨ p ≤ r)
  fetched : (s.runs r).stage.isFetched = true → stage.isFetched = true ∧ stage ≠ .downloading

namespace Move

section

variable (h : Move s r stage asked memory gone)
include h

theorem started (hs : Scheduled s) : Started s r := by
  by_contra hnot
  have hlive := h.live
  rw [hs.unstarted r hnot] at hlive
  cases hlive

theorem known {key : Key} {p : Nat}
    (hp : Known s key p) : Known (s.moved r stage asked memory gone) key p := by
  apply hp.mono (t := s.moved r stage asked memory gone) (le_refl _)
  · intro q _
    exact moved_key q
  intro q _ hq
  rw [moved_stage]
  split
  · exact h.entered
  exact hq

theorem heldOn {q : Nat} {row : Asset}
    (hheld : Held s q row) : Held (s.moved r stage asked memory gone) q row where
  holder_le := hheld.holder_le
  holder := by
    rw [moved_key]
    exact h.known hheld.holder
  producer := by
    rw [moved_key]
    exact h.known hheld.producer
  fresh := by
    rw [moved_key]
    exact hheld.fresh

theorem scheduled (hs : Scheduled s) : Scheduled (s.moved r stage asked memory gone) where
  done_le := by
    have hle := hs.done_le
    simp only [moved_done, moved_tasks, length_append]
    omega
  running := by
    intro hcur
    have hlt := hs.running hcur
    simp only [moved_done, moved_tasks, length_append]
    omega
  queued := by
    intro q m hq
    by_cases hqr : q = r
    · subst hqr
      rw [moved_stage_self, h.entered] at hq
      cases hq
    rw [moved_stage_of_ne hqr] at hq
    obtain ⟨hdone, hlen, hcur⟩ := hs.queued q m hq
    refine ⟨hdone, ?_, hcur⟩
    simp only [moved_tasks, length_append]
    omega
  awaiting := by
    intro q n hq
    simp only [moved_tasks, moved_done, length_append]
    by_cases hqr : q = r
    · subst hqr
      rw [moved_stage_self] at hq
      obtain ⟨rfl, hne⟩ := h.awaits n hq
      have hpos := length_pos_iff.mpr hne
      have hle := hs.done_le
      omega
    rw [moved_stage_of_ne hqr] at hq
    have hold := hs.awaiting q n hq
    omega
  unstarted := by
    intro q hq
    have hqr : q ≠ r := by
      rintro rfl
      exact hq (h.started hs)
    rw [moved_stage_of_ne hqr]
    exact hs.unstarted q hq
  asked := by
    intro c hc
    obtain ⟨htask, hpre⟩ := hs.asked c hc
    refine ⟨?_, hpre⟩
    rw [moved_tasks, getElem?_append_left (List.getElem?_eq_some_iff.mp htask).1]
    exact htask
  after := by
    intro c hc q hin hpre
    obtain ⟨hwait, hpast⟩ := hs.after c hc q hin hpre
    by_cases hqr : q = r
    · subst hqr
      rw [moved_stage_self, h.entered]
      constructor
      · intro m hm
        cases hm
      intro _
      cases hq : (s.runs q).stage.queuedAt with
      | none => exact hpast hq
      | some m =>
        have hm := hwait m hq
        have hdue := h.due m hq
        exact hm.trans_le hdue
    rw [moved_stage_of_ne hqr]
    exact ⟨hwait, hpast⟩
  ahead := by
    intro c hc q m hle hq
    by_cases hqr : q = r
    · subst hqr
      rw [moved_stage_self, h.entered] at hq
      cases hq
    rw [moved_stage_of_ne hqr] at hq
    exact hs.ahead c hc q m hle hq

theorem isOver_moved {q : Nat}
    (hover : ((s.moved r stage asked memory gone).runs q).stage.isOver = false) :
    (s.runs q).stage.isOver = false := by
  by_cases hqr : q = r
  · rw [hqr]
    exact h.live
  rw [moved_stage_of_ne hqr] at hover
  exact hover

theorem guarded (hg : Guarded s) : Guarded (s.moved r stage asked memory gone) where
  pending := by
    intro key q hq
    obtain ⟨hin, hkey, hvalid⟩ := hg.pending key q hq
    exact ⟨hin, by rw [moved_key, hkey], by rw [moved_valid, hvalid]⟩
  live := by
    intro q hvalid hlive
    rw [moved_valid] at hvalid
    rw [moved_key]
    exact hg.live q hvalid (h.isOver_moved hlive)
  fenced := by
    intro c hc q hcovers hle hvalid
    rw [moved_key] at hcovers
    rw [moved_valid] at hvalid
    have hover := hg.fenced c hc q hcovers hle hvalid
    have hqr : q ≠ r := by
      rintro rfl
      rw [h.live] at hover
      cases hover
    rw [moved_stage_of_ne hqr]
    exact hover
  cause := by
    intro q hin hvalid
    rw [moved_valid] at hvalid
    rw [moved_key]
    exact hg.cause q hin hvalid
  stale := by
    intro c hc q hq
    obtain ⟨hle, hcovers, hvalid, hreturned⟩ := hg.stale c hc q hq
    rw [moved_key, moved_valid]
    refine ⟨hle, hcovers, hvalid, ?_⟩
    intro row hrow
    by_cases hqr : q = r
    · subst hqr
      rw [moved_stage_self] at hrow
      have hval := h.returned row hrow
      rw [hvalid] at hval
      cases hval
    rw [moved_stage_of_ne hqr] at hrow
    exact hreturned row hrow
  apart := by
    intro a b ha hb hab hkey hlive
    rw [moved_key, moved_key] at hkey
    rw [moved_key]
    exact hg.apart a b ha hb hab hkey (h.isOver_moved hlive)
  upgraded := by
    intro q row n hstage c hc hcovers hle
    rw [moved_key] at hcovers
    by_cases hqr : q = r
    · subst hqr
      rw [moved_stage_self] at hstage
      have hvalid := h.upgrading row n hstage
      have hlt := hg.before_lt hc hcovers hvalid h.live
      omega
    rw [moved_stage_of_ne hqr] at hstage
    exact hg.upgraded q row n hstage c hc hcovers hle

theorem stocked (hg : Guarded s) (hk : Stocked s) :
    Stocked (s.moved r stage asked memory gone) where
  memory := by
    intro entry hentry
    cases h.kept entry hentry with
    | inl hold =>
      obtain ⟨hholder, hproducer⟩ := hk.memory entry hold
      exact ⟨h.known hholder, h.known hproducer⟩
    | inr hnew =>
      obtain ⟨hkey, -, hheld⟩ := hnew
      rw [hkey]
      exact ⟨h.known hheld.holder, h.known hheld.producer⟩
  memoryFresh := by
    intro entry hentry c hc hcovers hvoided
    cases h.kept entry hentry with
    | inl hold => exact hk.memoryFresh entry hold c hc hcovers hvoided
    | inr hnew =>
      obtain ⟨hkey, hvalid, hheld⟩ := hnew
      rw [hkey] at hcovers
      exact hheld.fresh c hc hcovers hvoided (hg.before_lt hc hcovers hvalid h.live)
  held := by
    intro q row hrow
    by_cases hqr : q = r
    · subst hqr
      rw [moved_stage_self] at hrow
      exact h.heldOn (h.held row hrow)
    rw [moved_stage_of_ne hqr] at hrow
    exact h.heldOn (hk.held q row hrow)
  disk := by
    intro key row hrow
    exact h.known (hk.disk key row hrow)
  diskFresh := hk.diskFresh

end

theorem task_moved {n : Nat} {task : Task}
    (htask : (s.moved r stage asked memory gone).tasks[n]? = some task) :
    s.tasks[n]? = some task ∨ s.tasks.length ≤ n ∧ task ∈ asked := by
  rw [moved_tasks] at htask
  by_cases hn : n < s.tasks.length
  · rw [getElem?_append_left hn] at htask
    exact .inl htask
  rw [getElem?_append_right (by omega)] at htask
  exact .inr ⟨by omega, mem_of_getElem? htask⟩

section

variable (h : Move s r stage asked memory gone)
include h

theorem task_length {n : Nat} {task : Task}
    (htask : (s.moved r stage asked memory gone).tasks[n]? = some task)
    (hn : s.tasks.length ≤ n) : n = s.tasks.length := by
  have hlt := (List.getElem?_eq_some_iff.mp htask).1
  rw [moved_tasks, length_append] at hlt
  have hone : asked.length ≤ 1 := by
    cases h.asked <;> simp
  omega

theorem not_writing {n q : Nat} {row : Asset}
    (hu : Queued s) (hn : s.done ≤ n) (htask : s.tasks[n]? = some (.write q row)) : q ≠ r := by
  rintro rfl
  have hawaits : (s.runs q).stage.awaits = some n := by
    cases hu.writes n q row hn htask with
    | inl hstage | inr hstage => rw [hstage]; rfl
  have hfree := h.free n hawaits
  omega

theorem queued (hs : Scheduled s) (hk : Stocked s)
    (hu : Queued s) : Queued (s.moved r stage asked memory gone) where
  writes := by
    intro n q row hn htask
    cases task_moved htask with
    | inl hold =>
      rw [moved_stage_of_ne (h.not_writing hu hn hold)]
      exact hu.writes n q row hn hold
    | inr hnew =>
      obtain ⟨hlen, hmem⟩ := hnew
      have hend := h.task_length htask hlen
      cases h.asked with
      | none => cases hmem
      | touch | remove key _ _ => simp at hmem
      | write row' hwaits =>
        obtain ⟨rfl, rfl⟩ := Task.write.inj (mem_singleton.mp hmem)
        rw [moved_stage_self, hend]
        exact hwaits
  removes := by
    intro n q key hn htask
    rw [moved_key, moved_legacyKey]
    cases task_moved htask with
    | inl hold => exact hu.removes n q key hn hold
    | inr hnew =>
      cases h.asked with
      | none => cases hnew.2
      | touch | write row' _ => simp at hnew
      | remove key' hown _ =>
        obtain ⟨rfl, rfl⟩ := Task.remove.inj (mem_singleton.mp hnew.2)
        exact ⟨h.started hs, hown⟩
  removesOld := by
    intro n q hn htask
    rw [moved_key] at htask ⊢
    -- the writes that are left, with what they store
    have hwrites : ∀ n' q' row, s.done ≤ n' →
        (s.moved r stage asked memory gone).tasks[n']? = some (.write q' row) →
          s.tasks[n']? = some (.write q' row) ∨ n' = s.tasks.length ∧ asked = [.write r row] := by
      intro n' q' row hn' htask'
      cases task_moved htask' with
      | inl hold => exact .inl hold
      | inr hnew =>
        have hlen := h.task_length htask' hnew.1
        cases h.asked with
        | none => cases hnew.2
        | touch | remove key _ _ => simp at hnew
        | write row' _ =>
          obtain ⟨rfl, rfl⟩ := Task.write.inj (mem_singleton.mp hnew.2)
          exact .inr ⟨hlen, rfl⟩
    cases task_moved htask with
    | inl hold =>
      obtain ⟨hdisk, hlater⟩ := hu.removesOld n q hn hold
      refine ⟨hdisk, ?_⟩
      intro n' q' row hn' htask' hkey hlt
      rw [moved_key] at hkey
      cases hwrites n' q' row hn' htask' with
      | inl hold' => exact hlater n' q' row hn' hold' hkey hlt
      | inr hnew =>
        have hlen := (List.getElem?_eq_some_iff.mp hold).1
        omega
    | inr hnew =>
      have hlen := h.task_length htask hnew.1
      cases hasked : h.asked with
      | none => cases hnew.2
      | touch | write row' _ => simp at hnew
      | remove key' _ hold =>
        obtain ⟨rfl, -⟩ := Task.remove.inj (mem_singleton.mp hnew.2)
        constructor
        · intro row hrow
          exact hold _ (hk.disk _ row hrow)
        intro n' q' row hn' htask' hkey hlt
        rw [moved_key] at hkey
        cases hwrites n' q' row hn' htask' with
        | inr hnew' => simp at hnew'
        | inl hold' =>
          have hheld : (s.runs q').stage.held = some row := by
            cases hu.writes n' q' row hn' hold' with
            | inl hstage | inr hstage => rw [hstage]; rfl
          have hproducer := (hk.held q' row hheld).producer
          rw [hkey] at hproducer
          have hle := hold _ hproducer
          omega
  writing := by
    intro q row hcur
    rw [moved_key]
    obtain ⟨htask, hcalls⟩ := hu.writing q row hcur
    refine ⟨?_, hcalls⟩
    rw [moved_tasks, moved_done, getElem?_append_left (List.getElem?_eq_some_iff.mp htask).1]
    exact htask
  removing := by
    intro q keys hcur key hkey
    have htask := hu.removing q keys hcur key hkey
    rw [moved_tasks, moved_done, getElem?_append_left (List.getElem?_eq_some_iff.mp htask).1]
    exact htask
  gone := hu.gone

theorem logged (hs : Scheduled s) (hg : Guarded s)
    (hl : Logged s) : Logged (s.moved r stage asked memory gone) where
  dropped := by
    intro entry hentry
    rcases mem_append.mp hentry with hold | hnew
    · exact hl.dropped entry hold
    obtain ⟨p, hp, rfl⟩ := mem_map.mp hnew
    exact (h.gone p hp).1
  spared := by
    intro c hc q hq p hentry
    rcases mem_append.mp hentry with hold | hnew
    · exact hl.spared c hc q hq p hold
    obtain ⟨p', hp, heq⟩ := mem_map.mp hnew
    obtain ⟨rfl, rfl⟩ := Prod.mk.inj heq
    obtain ⟨hle, -, hvalid, -⟩ := hg.stale c hc r hq
    cases (h.gone p' hp).2 with
    | inl hval =>
      rw [hvalid] at hval
      cases hval
    | inr hold => omega
  downloads := by
    intro q hq
    by_cases hqr : q = r
    · subst hqr
      rw [moved_stage_self]
      refine ⟨h.started hs, ?_⟩
      by_cases hstage : stage = .downloading
      · rw [hstage]
        rfl
      simp only [State.moved, if_neg hstage] at hq
      exact (h.fetched (hl.downloads q hq).2).1
    rw [moved_stage_of_ne hqr]
    apply hl.downloads
    simp only [State.moved] at hq
    split at hq
    · simpa [hqr] using hq
    exact hq
  once := by
    simp only [State.moved]
    split
    case isTrue hstage =>
      have hnot : r ∉ s.downloads := by
        intro hmem
        exact (h.fetched (hl.downloads r hmem).2).2 hstage
      rw [nodup_append]
      refine ⟨hl.once, nodup_singleton r, ?_⟩
      intro a ha b hb
      rw [mem_singleton.mp hb]
      rintro rfl
      exact hnot ha
    case isFalse => exact hl.once

theorem keyed (hs : Scheduled s)
    (hy : Keyed platform s) : Keyed platform (s.moved r stage asked memory gone) where
  runs := by
    intro q hq
    rw [moved_key, moved_legacyKey]
    exact hy.runs q hq
  calls := hy.calls
  memory := by
    intro entry hentry
    cases h.kept entry hentry with
    | inl hold => exact hy.memory entry hold
    | inr hnew =>
      rw [hnew.1]
      exact hy.current (h.started hs)

theorem sound (hsound : Sound platform s) : Sound platform (s.moved r stage asked memory gone) where
  scheduled := h.scheduled hsound.scheduled
  guarded := h.guarded hsound.guarded
  stocked := h.stocked hsound.guarded hsound.stocked
  queued := h.queued hsound.scheduled hsound.stocked hsound.queued
  logged := h.logged hsound.scheduled hsound.guarded hsound.logged
  keyed := h.keyed hsound.scheduled hsound.keyed
  fits := h.fits

end

end Move

@[simp] theorem totalBytes_cons (entry : Key × Asset) (memory : List (Key × Asset)) :
    totalBytes (entry :: memory) = entry.2.bytes + totalBytes memory := by
  simp [totalBytes]

theorem totalBytes_le {memory memory' : List (Key × Asset)} (h : memory.Sublist memory') :
    totalBytes memory ≤ totalBytes memory' := by
  induction h with
  | slnil => exact le_refl _
  | cons entry _ ih =>
    rw [totalBytes_cons]
    omega
  | cons_cons entry _ ih =>
    rw [totalBytes_cons, totalBytes_cons]
    omega

theorem Fits.sublist {memory' : List (Key × Asset)} (h : Fits memory)
    (hsub : memory'.Sublist memory) : Fits memory' where
  distinct := h.distinct.sublist (hsub.map _)
  count := hsub.length_le.trans h.count
  budget := by
    cases h.budget with
    | inl hle => exact .inl ((totalBytes_le hsub).trans hle)
    | inr hone =>
      obtain ⟨entry, rfl⟩ := hone
      cases sublist_singleton.mp hsub with
      | inl hnil =>
        left
        rw [hnil]
        exact Nat.zero_le _
      | inr hself => exact .inr ⟨entry, hself⟩

/-- The loop keeps the row that was just added; it stops within the limits or
when that row is alone. -/
theorem evict_spec (key : Key) (row : Asset) (front : List (Key × Asset))
    (hne : ∀ entry ∈ front, entry.1 ≠ key) : let next := front ++ [(key, row)]
    let (kept, released) := evict key next.length (totalBytes next) next
    kept.Sublist next ∧ kept.length ≤ 64 ∧
      (totalBytes kept ≤ previewCacheBytes ∨ kept = [(key, row)]) ∧
      ∀ asset ∈ released, ∃ oldKey, (oldKey, asset) ∈ front := by
  induction front with
  | nil =>
    simp [evict]
  | cons entry front ih =>
    obtain ⟨oldKey, old⟩ := entry
    have hkey : oldKey ≠ key := hne (oldKey, old) mem_cons_self
    obtain ⟨hsub, hcount, hbudget, hgone⟩ :=
      ih (fun entry hentry => hne entry (mem_cons_of_mem _ hentry))
    simp only [cons_append, length_cons, totalBytes_cons, evict]
    split
    case isTrue hfit =>
      refine ⟨List.Sublist.refl _, by simpa using hfit.1, ?_, ?_⟩
      · left
        simpa using hfit.2
      intro asset hasset
      cases hasset
    case isFalse =>
      simp only [Nat.add_sub_cancel, Nat.add_sub_cancel_left]
      refine ⟨hsub.cons _, hcount, hbudget, ?_⟩
      intro asset hasset
      rcases mem_cons.mp hasset with rfl | hrest
      · exact ⟨oldKey, mem_cons_self⟩
      obtain ⟨k, hk⟩ := hgone asset hrest
      exact ⟨k, mem_cons_of_mem _ hk⟩

theorem mem_of_lookup {key : Key} {row : Asset} (h : memory.lookup key = some row) :
    (key, row) ∈ memory := by
  obtain ⟨front, back, hmemory, -⟩ := lookup_eq_some_iff.mp h
  rw [hmemory]
  simp

theorem without_sublist (key : Key) (memory : List (Key × Asset)) :
    (without key memory).Sublist memory := filter_sublist

theorem remember_spec (key : Key) (row : Asset) (hfits : Fits memory) :
    let (kept, released) := remember key row memory
    Fits kept ∧ (∀ entry ∈ kept, entry ∈ memory ∨ entry = (key, row)) ∧
      ∀ asset ∈ released, ∃ oldKey, (oldKey, asset) ∈ memory := by
  have hne : ∀ entry ∈ without key memory, entry.1 ≠ key := by
    intro entry hentry
    simpa using (mem_filter.mp hentry).2
  obtain ⟨hsub, hcount, hbudget, hgone⟩ := evict_spec key row (without key memory) hne
  have hdist : ((without key memory ++ [(key, row)]).map Prod.fst).Nodup := by
    rw [map_append, map_singleton, nodup_append]
    refine ⟨hfits.distinct.sublist ((without_sublist key memory).map _), nodup_singleton _, ?_⟩
    intro a ha b hb
    obtain ⟨entry, hentry, rfl⟩ := mem_map.mp ha
    rw [mem_singleton.mp hb]
    exact hne entry hentry
  refine ⟨⟨hdist.sublist (hsub.map _), hcount, ?_⟩, ?_, ?_⟩
  · cases hbudget with
    | inl hle => exact .inl hle
    | inr hone => exact .inr ⟨_, hone⟩
  · intro entry hentry
    rcases mem_append.mp (hsub.subset hentry) with hold | hnew
    · exact .inl ((without_sublist key memory).subset hold)
    exact .inr (mem_singleton.mp hnew)
  intro asset hasset
  obtain ⟨k, hk⟩ := hgone asset hasset
  exact ⟨k, (without_sublist key memory).subset hk⟩

end ImApp.PreviewCache
