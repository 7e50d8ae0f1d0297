import ImApp.PreviewCache.Cache

/-!
What holds in every state of the cache. The facts are grouped by what they are
about: the order of the awaits, the validity of the runs, the assets, the queue
of mutations and the record of what was removed. For a run in progress one
condition on its next stage keeps all of them.
-/

namespace ImApp.PreviewCache

def Started (s : State) (r : Nat) : Prop := 1 ≤ r ∧ r ≤ s.started

/-- The time before the first run, or a run under `key` that is past its wait for
the mutations. -/
def Known (s : State) (key : Key) (p : Nat) : Prop :=
  p = 0 ∨ Started s p ∧ (s.runs p).key = key ∧ (s.runs p).stage.queuedAt = none

/-- A row that the run `r` holds. Calls made before `r` left nothing older. -/
structure Held (s : State) (r : Nat) (row : Asset) : Prop where
  holder_le : row.holder ≤ r
  holder : Known s (s.runs r).key row.holder
  producer : Known s (s.runs r).key row.producer
  fresh : ∀ c ∈ s.calls, covers c.keys (s.runs r).key = true → c.task ∉ s.voided →
    c.before < r → c.before < row.producer

structure Scheduled (s : State) : Prop where
  done_le : s.done ≤ s.tasks.length
  running : s.current.isSome → s.done < s.tasks.length
  queued : ∀ r m, (s.runs r).stage.queuedAt = some m →
    s.done ≤ m ∧ m ≤ s.tasks.length ∧ (s.current.isSome → s.done < m)
  awaiting : ∀ r n, (s.runs r).stage.awaits = some n → n < s.tasks.length ∧ s.done ≤ n + 1
  unstarted : ∀ r, ¬Started s r → (s.runs r).stage = .threw
  asked : ∀ c ∈ s.calls, s.tasks[c.task]? = some (mutation c.keys) ∧ c.before ≤ s.started
  /-- A run waits for the calls made before it. -/
  after : ∀ c ∈ s.calls, ∀ r, Started s r → c.before < r →
    (∀ m, (s.runs r).stage.queuedAt = some m → c.task < m) ∧
      ((s.runs r).stage.queuedAt = none → c.task < s.done)
  ahead : ∀ c ∈ s.calls, ∀ r m, r ≤ c.before → (s.runs r).stage.queuedAt = some m → m ≤ c.task

structure Guarded (s : State) : Prop where
  pending : ∀ key r, s.pending key = some r →
    Started s r ∧ (s.runs r).key = key ∧ (s.runs r).valid = true
  live : ∀ r, (s.runs r).valid = true → (s.runs r).stage.isOver = false →
    s.pending (s.runs r).key = some r
  fenced : ∀ c ∈ s.calls, ∀ r, covers c.keys (s.runs r).key = true → r ≤ c.before →
    (s.runs r).valid = true → (s.runs r).stage.isOver = true
  cause : ∀ r, Started s r → (s.runs r).valid = false →
    ∃ c ∈ s.calls, covers c.keys (s.runs r).key = true ∧ r ≤ c.before
  stale : ∀ c ∈ s.calls, ∀ r ∈ c.stale, r ≤ c.before ∧ covers c.keys (s.runs r).key = true ∧
    (s.runs r).valid = false ∧ ∀ row, (s.runs r).stage ≠ .returned row
  /-- Two runs of one key overlap only over a call. -/
  apart : ∀ a b, Started s a → Started s b → a < b → (s.runs a).key = (s.runs b).key →
    (s.runs a).stage.isOver = false →
      ∃ c ∈ s.calls, covers c.keys (s.runs a).key = true ∧ a ≤ c.before ∧ c.before < b
  upgraded : ∀ r row n, (s.runs r).stage = .upgrading row n → ∀ c ∈ s.calls,
    covers c.keys (s.runs r).key = true → r ≤ c.before → n < c.task

structure Stocked (s : State) : Prop where
  memory : ∀ entry ∈ s.memory, Known s entry.1 entry.2.holder ∧ Known s entry.1 entry.2.producer
  memoryFresh : ∀ entry ∈ s.memory, ∀ c ∈ s.calls, covers c.keys entry.1 = true →
    c.task ∉ s.voided → c.before < entry.2.producer
  held : ∀ r row, (s.runs r).stage.held = some row → Held s r row
  disk : ∀ key row, s.disk key = some row → Known s key row.producer
  diskFresh : ∀ key row, s.disk key = some row → ∀ c ∈ s.calls, clears c.keys key = true →
    c.task ∉ s.voided → c.task < s.done → c.before < row.producer

def Op.leaves (key : Key) : Op → Prop
  | .removing _ keys => key ∈ keys
  | .clearing => True
  | .nothing | .writing _ _ => False

structure Queued (s : State) : Prop where
  writes : ∀ n r row, s.done ≤ n → s.tasks[n]? = some (.write r row) →
    (s.runs r).stage = .upgrading row n ∨ (s.runs r).stage = .writing row n
  removes : ∀ n r key, s.done ≤ n → s.tasks[n]? = some (.remove r key) →
    Started s r ∧ (key = (s.runs r).key ∨ key = (s.runs r).legacyKey)
  /-- What a run removes under its own key is not newer than the run. -/
  removesOld : ∀ n r, s.done ≤ n → s.tasks[n]? = some (.remove r (s.runs r).key) →
    (∀ row, s.disk (s.runs r).key = some row → row.producer ≤ r) ∧
      ∀ n' q row, s.done ≤ n' → s.tasks[n']? = some (.write q row) →
        (s.runs q).key = (s.runs r).key → r < row.producer → n < n'
  writing : ∀ r row, s.current = some (.writing r row) → s.tasks[s.done]? = some (.write r row) ∧
      ∀ c ∈ s.calls, covers c.keys (s.runs r).key = true → r ≤ c.before → s.done < c.task
  removing : ∀ r keys, s.current = some (.removing (some r) keys) →
    ∀ key ∈ keys, s.tasks[s.done]? = some (.remove r key)
  gone : ∀ op, s.current = some op → ∀ c ∈ s.calls, c.task = s.done → c.task ∉ s.voided →
    ∀ key, clears c.keys key = true → s.disk key = none ∨ op.leaves key

structure Logged (s : State) : Prop where
  dropped : ∀ entry ∈ s.dropped, entry.2 ≤ s.started
  spared : ∀ c ∈ s.calls, ∀ r ∈ c.stale, ∀ p, (r, p) ∈ s.dropped → p ≤ c.before
  downloads : ∀ r ∈ s.downloads, Started s r ∧ (s.runs r).stage.isFetched = true
  once : s.downloads.Nodup

structure Keyed (platform : Platform) (s : State) : Prop where
  runs : ∀ r, Started s r → ∃ owner url, (s.runs r).key = previewMediaCacheKey platform owner url ∧
      (s.runs r).legacyKey = mediaCacheLegacyKey owner url
  calls : ∀ c ∈ s.calls, ∀ own legacy, c.keys = some (own, legacy) → ∃ owner url,
    own = previewMediaCacheKey platform owner url ∧ legacy = mediaCacheLegacyKey owner url
  memory : ∀ entry ∈ s.memory, ∃ owner url, entry.1 = previewMediaCacheKey platform owner url

/-- The limits of the memory. A single row may exceed the budget. -/
structure Fits (memory : List (Key × Asset)) : Prop where
  distinct : (memory.map Prod.fst).Nodup
  count : memory.length ≤ 64
  budget : totalBytes memory ≤ previewCacheBytes ∨ ∃ entry, memory = [entry]

structure Sound (platform : Platform) (s : State) : Prop where
  scheduled : Scheduled s
  guarded : Guarded s
  stocked : Stocked s
  queued : Queued s
  logged : Logged s
  keyed : Keyed platform s
  fits : Fits s.memory

variable {s : State} {platform : Platform}

variable {key : Key} {p r : Nat}

theorem Known.mono {t : State} (h : Known s key p) (hstarted : s.started ≤ t.started)
    (hkey : ∀ r, Started s r → (t.runs r).key = (s.runs r).key)
    (hpast : ∀ r, Started s r → (s.runs r).stage.queuedAt = none →
      (t.runs r).stage.queuedAt = none) : Known t key p := by
  cases h with
  | inl hzero => exact .inl hzero
  | inr hrun =>
    obtain ⟨hin, hown, hq⟩ := hrun
    right
    refine ⟨⟨hin.1, hin.2.trans hstarted⟩, ?_, hpast p hin hq⟩
    rw [hkey p hin, hown]

theorem Known.le_started (h : Known s key p) : p ≤ s.started := by
  cases h with
  | inl hzero => omega
  | inr hrun => exact hrun.1.2

theorem Guarded.started (h : Guarded s) (hvalid : (s.runs r).valid = true)
    (hlive : (s.runs r).stage.isOver = false) : Started s r :=
  (h.pending _ r (h.live r hvalid hlive)).1

theorem Guarded.before_lt {c : Call} (h : Guarded s) (hc : c ∈ s.calls)
    (hcovers : covers c.keys (s.runs r).key = true) (hvalid : (s.runs r).valid = true)
    (hlive : (s.runs r).stage.isOver = false) : c.before < r := by
  by_contra hle
  have hover := h.fenced c hc r hcovers (by omega) hvalid
  rw [hlive] at hover
  cases hover

theorem Sound.known_le (h : Sound platform s) (hvalid : (s.runs r).valid = true)
    (hlive : (s.runs r).stage.isOver = false) (hp : Known s (s.runs r).key p) : p ≤ r := by
  cases hp with
  | inl hzero => omega
  | inr hrun =>
    obtain ⟨hin, hkey, -⟩ := hrun
    by_contra hlt
    have hstarted := h.guarded.started hvalid hlive
    obtain ⟨c, hc, hcovers, hle, -⟩ :=
      h.guarded.apart r p hstarted hin (by omega) hkey.symm hlive
    have hpre := h.guarded.before_lt hc hcovers hvalid hlive
    omega

/-- Nor did a run that is just past its upgrade, valid or not: a later run of its
key still waits for the call between the two. -/
theorem Sound.known_le_upgraded {n : Nat} {row : Asset} (h : Sound platform s)
    (hstage : (s.runs r).stage = .upgrading row n) (hp : Known s (s.runs r).key p) : p ≤ r := by
  cases hp with
  | inl hzero => omega
  | inr hrun =>
    obtain ⟨hin, hkey, hpast⟩ := hrun
    by_contra hlt
    have hlive : (s.runs r).stage.isOver = false := by
      rw [hstage]
      rfl
    have hstarted : Started s r := by
      by_contra hnot
      rw [h.scheduled.unstarted r hnot] at hstage
      cases hstage
    obtain ⟨c, hc, hcovers, hle, hpre⟩ :=
      h.guarded.apart r p hstarted hin (by omega) hkey.symm hlive
    have hn := h.guarded.upgraded r row n hstage c hc hcovers hle
    have hdone := (h.scheduled.after c hc p hin hpre).2 hpast
    have hawaits := (h.scheduled.awaiting r n (by rw [hstage]; rfl)).2
    omega

theorem Sound.known_le_queued {m : Nat} (h : Sound platform s)
    (hstage : (s.runs r).stage.queuedAt = some m) (hp : Known s (s.runs r).key p) : p ≤ r := by
  cases hp with
  | inl hzero => omega
  | inr hrun =>
    obtain ⟨hin, hkey, hpast⟩ := hrun
    by_contra hlt
    have hlive : (s.runs r).stage.isOver = false := by
      cases hs : (s.runs r).stage <;> simp [hs, Stage.queuedAt, Stage.isOver] at hstage ⊢
    have hstarted : Started s r := by
      by_contra hnot
      rw [h.scheduled.unstarted r hnot] at hstage
      cases hstage
    obtain ⟨c, hc, hcovers, hle, hpre⟩ :=
      h.guarded.apart r p hstarted hin (by omega) hkey.symm hlive
    have hm := h.scheduled.ahead c hc r m hle hstage
    have hdone := (h.scheduled.after c hc p hin hpre).2 hpast
    have hq := (h.scheduled.queued r m hstage).1
    omega

theorem Keyed.legacy_ne (hlaw : platform.Lawful) (h : Keyed platform s) {q : Nat}
    (hr : Started s r) (hq : Started s q) (hne : (s.runs r).legacyKey ≠ (s.runs r).key) :
    (s.runs q).key ≠ (s.runs r).legacyKey := by
  obtain ⟨owner, url, hkey, hlegacy⟩ := h.runs r hr
  obtain ⟨owner', url', hkey', -⟩ := h.runs q hq
  intro heq
  rw [hkey, hlegacy] at hne
  rw [hkey', hlegacy] at heq
  exact hne (key_eq_of_legacyKey hlaw heq).symm

theorem Keyed.current (h : Keyed platform s) (hr : Started s r) :
    ∃ owner url, (s.runs r).key = previewMediaCacheKey platform owner url := by
  obtain ⟨owner, url, hkey, -⟩ := h.runs r hr
  exact ⟨owner, url, hkey⟩

theorem Keyed.covers_of_clears (hlaw : platform.Lawful) (h : Keyed platform s) {c : Call} (hkey : ∃ owner url, key = previewMediaCacheKey platform owner url)
    (hc : c ∈ s.calls) (hclears : clears c.keys key = true) : covers c.keys key = true := by
  cases hkeys : c.keys with
  | none => rfl
  | some pair =>
    obtain ⟨own, legacy⟩ := pair
    obtain ⟨owner, url, hown, hlegacy⟩ := h.calls c hc own legacy hkeys
    obtain ⟨owner', url', hkey⟩ := hkey
    rw [hkeys] at hclears
    simp only [clears, Bool.or_eq_true, decide_eq_true_eq] at hclears
    simp only [covers, decide_eq_true_eq]
    cases hclears with
    | inl heq => exact heq
    | inr heq =>
      have hsame : previewMediaCacheKey platform owner url = mediaCacheLegacyKey owner url :=
        key_eq_of_legacyKey hlaw (by rw [← hkey, ← heq, hlegacy])
      rw [hown, hsame, ← hlegacy, heq]

end ImApp.PreviewCache
