import ImApp.MediaCache.Progress
import ImApp.MediaCache.Storage

/-!
Rows and the files behind them. The budget holds after each insertion in every run.
That each row has its file needs that the cache never removes a file that a row
names, which an insertion may do to the very row it makes.
-/

namespace ImApp.MediaCache

open List Option Function Rows Cache
open JsonText (Text)
open StepSystem (Machine)

variable {device : Device} {s t : Stored}

namespace Cache

variable {c d : Cache}

theorem rows_discards (keys : List Text) (c : Cache) :
    (keys.foldl discard c).rows = c.rows.filter fun entry => entry.1 ∉ keys := by
  induction keys generalizing c with
  | nil => simp
  | cons key rest ih =>
    rw [foldl_cons, ih]
    change (c.rows.filter _).filter _ = _
    rw [List.filter_filter]
    apply filter_congr
    intro entry _
    by_cases hkey : entry.1 = key
    · simp [hkey]
    simp [hkey]

theorem removals_discards (keys : List Text) (c : Cache) {name : Text}
    (h : name ∈ (keys.foldl discard c).removals) : name ∈ c.removals ∨
      ∃ entry ∈ c.rows, entry.1 ∈ keys ∧ entry.2.rel = name ∧ name ≠ [] := by
  induction keys generalizing c with
  | nil => exact .inl h
  | cons key rest ih =>
    rcases ih (c.discard key) h with hold | ⟨entry, hentry, hkey, hname⟩
    · rcases mem_append.mp hold with hold | hnew
      · exact .inl hold
      obtain ⟨hrel, hne⟩ := mem_filter.mp hnew
      rw [mem_singleton, Rows.rel] at hrel
      rw [decide_eq_true_eq] at hne
      cases hlook : c.rows.lookup key with
      | none =>
        rw [hlook] at hrel
        exact absurd hrel hne
      | some row =>
        rw [hlook] at hrel
        exact .inr ⟨(key, row), mem_of_lookup hlook, mem_cons_self, hrel.symm, hne⟩
    exact .inr ⟨entry, (mem_delete.mp hentry).1, mem_cons_of_mem _ hkey, hname⟩

theorem keys_discards {keys : List Text} (h : c.rows.keys.Nodup) :
    (keys.foldl discard c).rows.keys.Nodup := by
  induction keys generalizing c with
  | nil => exact h
  | cons key rest ih => exact ih (keys_delete h)

theorem finishStore_stored (limit : Nat) (c : Cache) (key path rel : Text) (bytes : Nat)
    (now : Int) :
    (c.finishStore limit key (.stored path rel bytes) now).rows =
        (((pickCacheEvictions c.rows bytes).foldl discard c).rows).set key ⟨path, rel, bytes, now⟩ ∧
      (c.finishStore limit key (.stored path rel bytes) now).removals =
        ((pickCacheEvictions c.rows bytes).foldl discard c).removals := by
  let landed : Cache := { c with
    inflight := c.inflight.erase key
    backgroundInflight := c.backgroundInflight.erase key }
  have hsame : ∀ keys : List Text, ∀ c d : Cache, c.rows = d.rows → c.removals = d.removals →
      (keys.foldl discard c).rows = (keys.foldl discard d).rows ∧
        (keys.foldl discard c).removals = (keys.foldl discard d).removals := by
    intro keys
    induction keys with
    | nil => exact fun c d hrows hremov => ⟨hrows, hremov⟩
    | cons key rest ih =>
      intro c d hrows hremov
      apply ih
      · simp only [discard, hrows]
      simp only [discard, hrows, hremov]
  obtain ⟨hrows, hremov⟩ := hsame (pickCacheEvictions c.rows bytes) landed c rfl rfl
  have hserved := served_pump limit ((landed.remember key path rel bytes now).deliver key path)
  constructor
  · refine hserved.rows.trans ?_
    change (((pickCacheEvictions c.rows bytes).foldl discard landed).rows).set key _ = _
    rw [hrows]
  exact hserved.removals.trans hremov

theorem finishStore_failed (limit : Nat) (c : Cache) (key : Text) (skip : Bool) (now : Int) :
    (c.finishStore limit key (.failed skip) now).rows = c.rows ∧
      (c.finishStore limit key (.failed skip) now).removals = c.removals := by
  let noted : Cache := { c with
    inflight := c.inflight.erase key
    backgroundInflight := c.backgroundInflight.erase key
    skipped := if skip then Function.update c.skipped key true else c.skipped
    remoteUrls := Function.update c.remoteUrls key none }
  have hserved := served_pump limit (noted.fail key)
  exact ⟨hserved.rows, hserved.removals⟩

theorem totalBytes_stored (limit : Nat) {key path rel : Text} {bytes : Nat} {now : Int}
    (h : c.rows.keys.Nodup) (hbytes : bytes ≤ maxFileBytes) :
    totalBytes (c.finishStore limit key (.stored path rel bytes) now).rows ≤ maxTotalBytes := by
  have hroom : bytes ≤ maxTotalBytes := le_trans hbytes (by decide)
  have hfits := totalBytes_kept h hroom
  have hkeys : ((pickCacheEvictions c.rows bytes).foldl discard c).rows.keys.Nodup :=
    keys_discards h
  have hset : totalBytes ((((pickCacheEvictions c.rows bytes).foldl discard c).rows).set key
      ⟨path, rel, bytes, now⟩) ≤ totalBytes ((pickCacheEvictions c.rows bytes).foldl discard
        c).rows + bytes := totalBytes_set hkeys
  rw [(finishStore_stored limit c key path rel bytes now).1]
  rw [rows_discards] at hset ⊢
  exact le_trans hset hfits

theorem keys_applyIndex {rows : Rows} (items : List Item) (h : rows.keys.Nodup) :
    (applyIndex device rows items).keys.Nodup := by
  unfold applyIndex
  induction items generalizing rows with
  | nil => exact h
  | cons item rest ih =>
    rw [foldl_cons]
    apply ih
    simp only []
    split
    · split
      · exact h
      exact keys_set h
    split
    · exact h
    exact keys_set h

theorem proceed_frame {continuation : Continuation} (hc : c.Between device)
    (hstep : step device c (.proceed continuation) = some d) :
    d.rows = c.rows ∧ d.removals = c.removals := by
  simp only [step] at hstep
  split at hstep
  · cases hstep
    have hqueues : ({ c with
        continuations := c.continuations.erase continuation } : Cache).Queues :=
      { hc.inv.queues with }
    unfold Cache.proceed
    split
    · exact ⟨rfl, rfl⟩
    obtain ⟨-, -, hrows, hremov, -⟩ := enqueue_frame hqueues device.limit continuation.key
      continuation.background
    exact ⟨hrows, hremov⟩
  cases hstep

theorem keys_step {action : Action} (hc : c.Between device) (h : c.rows.keys.Nodup)
    (hstep : step device c action = some d) : d.rows.keys.Nodup := by
  cases action with
  | request url background now =>
    cases hstep
    unfold requestMediaCache
    split
    · exact h
    simp only []
    split
    · exact h
    split
    · split
      · exact keys_set h
      exact h
    exact h
  | warm =>
    cases hstep
    split
    · exact h
    exact h
  | forget url =>
    cases hstep
    unfold forgetMediaCache
    simp only []
    split
    · exact h
    exact keys_delete h
  | reset =>
    cases hstep
    rw [hc.reset.2.rows]
    exact h
  | loaded items =>
    simp only [step] at hstep
    split at hstep
    · cases hstep
      cases items with
      | none => exact nodup_nil
      | some items => exact keys_applyIndex items h
    cases hstep
  | proceed continuation =>
    rw [(proceed_frame hc hstep).1]
    exact h
  | finish download result now =>
    simp only [step] at hstep
    split at hstep
    · cases hstep
      cases result with
      | failed skip =>
        rw [(finishStore_failed _ _ _ _ _).1]
        exact h
      | stored path rel bytes =>
        rw [(finishStore_stored _ _ _ _ _ _ _).1]
        exact keys_set (keys_discards h)
    cases hstep
  | removed rel =>
    simp only [step] at hstep
    split at hstep
    · cases hstep
      exact h
    cases hstep

end Cache

theorem cache_reachable (hs : (mediaStore device).Reachable s) :
    (mediaCache device).Reachable s.cache := by
  apply hs.invariant (fun s => (mediaCache device).Reachable s.cache)
  · rintro s ⟨hcache, -⟩
    exact Machine.reachableBy_initial hcache
  intro s action t _ hreach hstep
  have hnext : ∀ {inner : Action} {cache : Cache}, step device s.cache inner = some cache →
      (mediaCache device).Reachable cache :=
    fun hinner => hreach.extend (Machine.Path.single trivial hinner)
  cases action with
  | cache inner =>
    simp only [mediaStore, change] at hstep
    split at hstep
    · cases hstep
    obtain ⟨cache, hcache, rfl⟩ := map_eq_some_iff.mp hstep
    exact hnext hcache
  | finish download outcome now | deadline download now =>
    obtain ⟨cache, hcache, rfl⟩ := map_eq_some_iff.mp hstep
    exact hnext hcache
  | late download outcome =>
    simp only [mediaStore, change] at hstep
    split at hstep
    · cases hstep
      exact hreach
    cases hstep

theorem keys_reachable {c : Cache} (hc : (mediaCache device).Reachable c) : c.rows.keys.Nodup := by
  have hall : c.Between device ∧ c.rows.keys.Nodup := by
    apply hc.invariant (fun c => c.Between device ∧ c.rows.keys.Nodup)
    · rintro c rfl
      exact ⟨between_started, nodup_nil⟩
    exact fun _ _ _ _ h hstep =>
      ⟨between_step h.1 hstep, keys_step h.1 h.2 hstep⟩
  exact hall.2

/-- The name of a blob that a store finds and whose size is not accepted. -/
def damaged (device : Device) (files : Files) (download : Download) : Option Text :=
  if device.isApp then none
  else match files download.key with
    | some bytes => if mediaCacheAcceptsSize bytes then none else some download.key
    | none =>
      if download.legacyKey = [] || download.legacyKey = download.key then none
      else match files download.legacyKey with
        | some bytes => if mediaCacheAcceptsSize bytes then none else some download.legacyKey
        | none => none

/-- The older name of a blob that a store moves to its key. -/
def migrated (device : Device) (files : Files) (download : Download) : Option Text :=
  if device.isApp || (files download.key).isSome || download.legacyKey = [] ||
      download.legacyKey = download.key then none
  else match files download.legacyKey with
    | some bytes => if mediaCacheAcceptsSize bytes then some download.legacyKey else none
    | none => none

variable {files next : Files} {download : Download} {outcome : Outcome} {result : StoreResult}

/-- What a store leaves of a file, and the file that it answers with. -/
structure StoreEffect (device : Device) (files next : Files) (download : Download)
    (result : StoreResult) : Prop where
  kept : ∀ name, (files name).isSome = true → (next name).isSome = true ∨
    (damaged device files download = some name ∧ ∃ skip, result = .failed skip) ∨
    (migrated device files download = some name ∧ ∃ path rel bytes, result = .stored path rel bytes)
  stored : ∀ path rel bytes, result = .stored path rel bytes →
    (next rel).isSome = true ∧ bytes ≤ maxFileBytes

variable {bytes : Nat}

theorem le_of_accepts (h : mediaCacheAcceptsSize bytes = true) : bytes ≤ maxFileBytes := by
  unfold mediaCacheAcceptsSize at h
  exact of_decide_eq_true ((Bool.and_eq_true _ _).mp h).2

variable {name : Text}

theorem isSome_put {other : Text} (h : (files name).isSome = true) :
    ((files.put other bytes) name).isSome = true := by
  by_cases hname : name = other
  · rw [hname, Files.put, update_self]
    rfl
  rw [Files.put, update_of_ne hname]
  exact h

theorem fetchBlob_effect : StoreEffect device files
    (fetchBlob files download.key outcome).1 download (fetchBlob files download.key outcome).2 := by
  unfold fetchBlob
  split
  · exact ⟨fun _ h => .inl h, fun _ _ _ h => by cases h⟩
  split
  · exact ⟨fun _ h => .inl h, fun _ _ _ h => by cases h⟩
  split
  · exact ⟨fun _ h => .inl h, fun _ _ _ h => by cases h⟩
  rename_i bytes hrefused
  refine ⟨fun _ h => .inl (isSome_put h), ?_⟩
  intro path rel size heq
  obtain ⟨-, rfl, rfl⟩ := StoreResult.stored.inj heq
  refine ⟨by simp [Files.put], le_of_accepts ?_⟩
  simpa using hrefused

theorem storeApp_effect : StoreEffect device files
    (storeApp device files download.key download.remote outcome).1 download
    (storeApp device files download.key download.remote outcome).2 := by
  unfold storeApp
  split
  · exact ⟨fun _ h => .inl h, fun _ _ _ h => by cases h⟩
  rename_i bytes _
  split
  · exact ⟨fun _ h => .inl h, fun _ _ _ h => by cases h⟩
  rename_i hacc
  split
  · exact ⟨fun _ h => .inl h, fun _ _ _ h => by cases h⟩
  simp only []
  split
  · exact ⟨fun _ h => .inl (isSome_put h), fun _ _ _ h => by cases h⟩
  refine ⟨fun _ h => .inl (isSome_put h), ?_⟩
  intro path rel size heq
  obtain ⟨-, rfl, rfl⟩ := StoreResult.stored.inj heq
  refine ⟨by simp [Files.put], le_of_accepts ?_⟩
  simpa using hacc

theorem storeH5_effect (hweb : device.isApp = false) : StoreEffect device files
    (storeH5 files download.key download.legacyKey outcome).1 download
    (storeH5 files download.key download.legacyKey outcome).2 := by
  have hremove : ∀ (files : Files) (name other : Text), (files name).isSome = true →
      ((files.remove other) name).isSome = true ∨ name = other := by
    intro files name other h
    by_cases hname : name = other
    · exact .inr hname
    rw [Files.remove, update_of_ne hname]
    exact .inl h
  unfold storeH5
  cases hkey : files download.key with
  | some bytes =>
    simp only []
    cases hacc : mediaCacheAcceptsSize bytes with
    | true =>
      refine ⟨fun _ h => .inl h, ?_⟩
      intro path rel size heq
      obtain ⟨-, rfl, rfl⟩ := StoreResult.stored.inj heq
      exact ⟨by simp [hkey], le_of_accepts hacc⟩
    | false =>
      refine ⟨fun name h => ?_, fun _ _ _ h => by cases h⟩
      rcases hremove files name download.key h with hkept | rfl
      · exact .inl hkept
      exact .inr (.inl ⟨by simp [damaged, hweb, hkey, hacc], true, rfl⟩)
  | none =>
    simp only []
    split
    · exact fetchBlob_effect
    rename_i hlegacy
    cases hfile : files download.legacyKey with
    | none => exact fetchBlob_effect
    | some bytes =>
      simp only [Bool.or_eq_true, decide_eq_true_eq, not_or] at hlegacy
      simp only []
      cases hacc : mediaCacheAcceptsSize bytes with
      | false =>
        refine ⟨fun name h => ?_, fun _ _ _ h => by cases h⟩
        rcases hremove files name download.legacyKey h with hkept | rfl
        · exact .inl hkept
        refine .inr (.inl ⟨?_, true, rfl⟩)
        simp [damaged, hweb, hkey, hlegacy, hfile, hacc]
      | true =>
        refine ⟨fun name h => ?_, ?_⟩
        · rcases hremove _ name download.legacyKey (isSome_put h) with hkept | rfl
          · exact .inl hkept
          refine .inr (.inr ⟨?_, _, _, _, rfl⟩)
          simp [migrated, hweb, hkey, hlegacy, hfile, hacc]
        intro path rel size heq
        obtain ⟨-, rfl, rfl⟩ := StoreResult.stored.inj heq
        refine ⟨?_, le_of_accepts hacc⟩
        change (((files.put download.key bytes).remove download.legacyKey)
          download.key).isSome = true
        rw [Files.remove, update_of_ne (Ne.symm hlegacy.2), Files.put, update_self]
        rfl

theorem storeRemote_effect : StoreEffect device files
    (storeRemote device files download outcome).1 download
    (storeRemote device files download outcome).2 := by
  unfold storeRemote
  split
  · exact ⟨fun _ h => .inl h, fun _ _ _ h => by cases h⟩
  split
  · exact storeApp_effect
  rename_i hweb
  exact storeH5_effect (by simpa using hweb)

/-- The name under which a download is stored. -/
def storedName (device : Device) (download : Download) : Text :=
  if device.isApp then appRel download.key download.remote else download.key

/-- The size of what a download is stored with, nothing when it fails. -/
def arriving (device : Device) (files : Files) (download : Download) (outcome : Outcome) :
    Option Nat :=
  if outcome.threw then none
  else if device.isApp then
    if outcome.copied && device.playableLocal (appRel download.key download.remote) ≠ [] then
      outcome.fetched.filter mediaCacheAcceptsSize
    else none
  else
    let blob := files download.key
    let legacy := if download.legacyKey = [] || download.legacyKey = download.key then none
      else files download.legacyKey
    let fetched := if outcome.unreachable then none else outcome.fetched
    (blob.orElse fun _ => legacy.orElse fun _ => fetched).filter mediaCacheAcceptsSize

/-- A store answers with what arrives, or it fails. -/
def AnswersWith (name : Text) (arriving : Option Nat) (result : StoreResult) : Prop :=
  match arriving with
  | some bytes => ∃ path, result = .stored path name bytes
  | none => ∃ skip, result = .failed skip

theorem fetchBlob_answers : AnswersWith download.key
    ((if outcome.unreachable then none else outcome.fetched).filter mediaCacheAcceptsSize)
    (fetchBlob files download.key outcome).2 := by
  unfold fetchBlob
  cases outcome.unreachable with
  | true => exact ⟨true, rfl⟩
  | false =>
    cases outcome.fetched with
    | none => exact ⟨false, rfl⟩
    | some bytes =>
      cases hacc : mediaCacheAcceptsSize bytes with
      | true | false => simp [AnswersWith, Option.filter, hacc]

theorem found_answers {path : Text} {accepted refused : Files} :
    AnswersWith name ((some bytes).filter mediaCacheAcceptsSize)
      (if mediaCacheAcceptsSize bytes then (accepted, StoreResult.stored path name bytes)
        else (refused, .failed true)).2 := by
  cases hacc : mediaCacheAcceptsSize bytes with
  | true | false => simp [AnswersWith, Option.filter, hacc]

theorem storeApp_answers (happ : device.isApp = true) (hthrew : outcome.threw = false) :
    AnswersWith (appRel download.key download.remote) (arriving device files download outcome)
      (storeApp device files download.key download.remote outcome).2 := by
  unfold storeApp arriving
  rw [hthrew, happ]
  cases outcome.fetched with
  | none => simp [AnswersWith]
  | some bytes =>
    cases hacc : mediaCacheAcceptsSize bytes with
    | false => simp [AnswersWith, Option.filter, hacc]
    | true =>
      cases outcome.copied with
      | false => simp [AnswersWith, hacc]
      | true =>
        by_cases hpath : device.playableLocal (appRel download.key download.remote) = []
        · simp [AnswersWith, hacc, hpath]
        simp [AnswersWith, Option.filter, hacc, hpath]

theorem storeH5_answers (hweb : device.isApp = false) (hthrew : outcome.threw = false) :
    AnswersWith download.key (arriving device files download outcome)
      (storeH5 files download.key download.legacyKey outcome).2 := by
  unfold storeH5 arriving
  rw [hthrew, hweb]
  simp only [Bool.false_eq_true, if_false]
  cases files download.key with
  | some bytes => exact found_answers
  | none =>
    simp only [orElse_none]
    split
    · exact fetchBlob_answers
    cases files download.legacyKey with
    | none => exact fetchBlob_answers
    | some bytes =>
      simp only [Bool.not_eq_true', ← Bool.not_eq_true, ite_not]
      exact found_answers

theorem storeRemote_answers : AnswersWith (storedName device download)
    (arriving device files download outcome) (storeRemote device files download outcome).2 := by
  unfold storeRemote storedName
  cases hthrew : outcome.threw with
  | true => simp [AnswersWith, arriving, hthrew]
  | false =>
    cases hdevice : device.isApp with
    | true => exact storeApp_answers hdevice hthrew
    | false => exact storeH5_answers hdevice hthrew

/-- Each row names a file that is stored, and that the cache has not asked to remove. -/
def Backed (s : Stored) : Prop :=
  ∀ entry ∈ s.cache.rows, (s.files entry.2.rel).isSome = true ∧ entry.2.rel ∉ s.cache.removals

/-- The items of an index that make a row. -/
def Device.keeps (device : Device) (item : Cache.Item) : Bool :=
  !(device.platform.mediaCacheIdentity item.url = [] ||
    (device.isApp && (item.rel = [] || device.playableLocal item.rel = [])) ||
    !mediaCacheAcceptsSize item.bytes)

/-- A store of a download harms no row: a blob that it removes or moves is not the file
of a row, but for the row that the download replaces. -/
def SafeStore (device : Device) (s : Stored) (download : Download) (replaced : Text → Prop) :
    Prop :=
  ∀ entry ∈ s.cache.rows, damaged device s.files download ≠ some entry.2.rel ∧
    (migrated device s.files download = some entry.2.rel → replaced entry.1)

/-- An insertion harms no row: the new name is not about to be removed, and the file of
an evicted row is neither the new one nor that of a row that stays. -/
def SafeInsertion (c : Cache) (key name : Text) (bytes : Nat) : Prop :=
  name ∉ c.removals ∧ ∀ victim ∈ c.rows, Dropped c.rows bytes victim.1 → victim.2.rel ≠ [] →
    victim.2.rel ≠ name ∧ ∀ other ∈ c.rows, ¬Dropped c.rows bytes other.1 → other.1 ≠ key →
      other.2.rel ≠ victim.2.rel

/-- A change that harms no row. The last item of a key in an index names a file that
is stored; a forgotten row shares its file with no other. -/
def Clean (device : Device) (s : Stored) : Change → Prop
  | .cache (.loaded (some items)) =>
    ∀ front item back, items = front ++ item :: back → device.keeps item = true →
      (∀ later ∈ back, device.keeps later = true → device.platform.mediaCacheIdentity later.url ≠
          device.platform.mediaCacheIdentity item.url) →
      (s.files item.rel).isSome = true ∧ item.rel ∉ s.cache.removals
  | .cache (.forget url) =>
    ∀ entry ∈ s.cache.rows, entry.1 = Cache.keyOf device url → entry.2.rel ≠ [] →
      ∀ other ∈ s.cache.rows, other.2.rel = entry.2.rel → other.1 = entry.1
  | .finish download outcome _ =>
    (outcome.threw = false → SafeStore device s download fun key => key = download.key) ∧
      ∀ bytes, arriving device s.files download outcome = some bytes →
        SafeInsertion s.cache download.key (storedName device download) bytes
  | .late download outcome =>
    outcome.threw = false → SafeStore device s download fun _ => False
  | _ => True

theorem applyIndex_cons (device : Device) (rows : Rows) (item : Cache.Item)
    (rest : List Cache.Item) :
    Cache.applyIndex device rows (item :: rest) = Cache.applyIndex device
      (if device.keeps item then rows.set (device.platform.mediaCacheIdentity item.url)
        ⟨if device.isApp then device.playableLocal item.rel else [], item.rel, item.bytes,
          item.usedAt⟩
      else rows) rest := by
  have hswap : ∀ (refused : Bool) (same kept : Rows),
      (if refused then same else kept) = if !refused then kept else same := by
    intro refused same kept
    cases refused with
    | false | true => rfl
  unfold Cache.applyIndex
  rw [foldl_cons]
  congr 1
  unfold Device.keeps
  cases device.isApp with
  | false | true => exact hswap _ _ _

variable {entry : Text × Row}

theorem mem_applyIndex {rows : Rows} {items : List Cache.Item}
    (h : entry ∈ Cache.applyIndex device rows items) :
    (entry ∈ rows ∧ ∀ later ∈ items, device.keeps later = true →
      device.platform.mediaCacheIdentity later.url ≠ entry.1) ∨
    ∃ front item back, items = front ++ item :: back ∧ device.keeps item = true ∧
      (∀ later ∈ back, device.keeps later = true → device.platform.mediaCacheIdentity later.url ≠
          device.platform.mediaCacheIdentity item.url) ∧ entry.2.rel = item.rel := by
  induction items generalizing rows with
  | nil => exact .inl ⟨h, fun _ hlater => absurd hlater not_mem_nil⟩
  | cons item rest ih =>
    rw [applyIndex_cons] at h
    rcases ih h with ⟨hentry, hnone⟩ | ⟨front, found, back, hrest, hfound⟩
    · have hstays : entry ∈ rows → (device.keeps item = true →
          device.platform.mediaCacheIdentity item.url ≠ entry.1) → entry ∈ rows ∧
            ∀ later ∈ item :: rest, device.keeps later = true →
              device.platform.mediaCacheIdentity later.url ≠ entry.1 := by
        intro hold hitem
        refine ⟨hold, fun later hlater => ?_⟩
        rcases mem_cons.mp hlater with rfl | hlater
        · exact hitem
        exact hnone later hlater
      split at hentry
      case isTrue hkeeps =>
        rcases mem_set hentry with rfl | ⟨hold, hkey⟩
        · exact .inr ⟨[], item, rest, rfl, hkeeps, hnone, rfl⟩
        exact .inl (hstays hold fun _ => Ne.symm hkey)
      case isFalse hkeeps => exact .inl (hstays hentry fun hkept => absurd hkept hkeeps)
    exact .inr ⟨item :: front, found, back, by rw [hrest]; rfl, hfound⟩

theorem kept_of_safe {replaced : Text → Prop}
    (hsafe : outcome.threw = false → SafeStore device s download replaced) (hentry : entry ∈ s.cache.rows)
    (hfile : (s.files entry.2.rel).isSome = true) (hkept : ¬replaced entry.1) :
    ((storeRemote device s.files download outcome).1 entry.2.rel).isSome = true := by
  cases hthrew : outcome.threw with
  | true =>
    unfold storeRemote
    rw [if_pos hthrew]
    exact hfile
  | false =>
    obtain ⟨hdamaged, hmigrated⟩ := hsafe hthrew entry hentry
    rcases storeRemote_effect.kept entry.2.rel hfile with h | ⟨h, -⟩ | ⟨h, -⟩
    · exact h
    · exact absurd h hdamaged
    exact absurd (hmigrated h) hkept

variable {now : Int}

/-- What a download leaves of the rows, when it is stored and the cache goes on. -/
theorem backed_stored {path : Text} {c : Cache} {files : Files}
    (hfiles : ∀ entry ∈ c.rows, entry.1 ≠ download.key → (files entry.2.rel).isSome = true)
    (hremov : ∀ entry ∈ c.rows, entry.2.rel ∉ c.removals)
    (hstored : (files name).isSome = true)
    (hsafe : SafeInsertion c download.key name bytes) :
    ∀ entry ∈ (c.finishStore device.limit download.key (.stored path name bytes) now).rows,
      (files entry.2.rel).isSome = true ∧ entry.2.rel ∉
        (c.finishStore device.limit download.key (.stored path name bytes) now).removals := by
  intro entry hentry
  obtain ⟨hrows, hremoved⟩ :=
    finishStore_stored device.limit c download.key path name bytes now
  rw [hrows] at hentry
  rw [hremoved]
  have hvictim : ∀ victim ∈ c.rows, victim.1 ∈ pickCacheEvictions c.rows bytes →
      Dropped c.rows bytes victim.1 := by
    intro victim hvictim hpicked
    exact (mem_pickCacheEvictions (List.mem_map_of_mem hvictim)).mp hpicked
  rcases mem_set hentry with rfl | ⟨hkept, hkey⟩
  · refine ⟨hstored, fun hmem => ?_⟩
    rcases removals_discards _ c hmem with hold | ⟨victim, hmem, hpicked, hname, hne⟩
    · exact hsafe.1 hold
    change victim.2.rel = name at hname
    change name ≠ [] at hne
    rw [← hname] at hne
    exact (hsafe.2 victim hmem (hvictim victim hmem hpicked) hne).1 hname
  rw [rows_discards] at hkept
  obtain ⟨hold, hstays⟩ := mem_filter.mp hkept
  rw [decide_eq_true_eq] at hstays
  refine ⟨hfiles entry hold hkey, fun hmem => ?_⟩
  rcases removals_discards _ c hmem with hremoval | ⟨victim, hmem, hpicked, hname, hne⟩
  · exact hremov entry hold hremoval
  rw [← hname] at hne
  have hnot : ¬Dropped c.rows bytes entry.1 := fun hdropped =>
    hstays ((mem_pickCacheEvictions (List.mem_map_of_mem hold)).mpr hdropped)
  exact (hsafe.2 victim hmem (hvictim victim hmem hpicked) hne).2 entry hold hnot hkey hname.symm

/-- The actions that neither make a row nor remove one keep the names of the rows. -/
theorem rel_requestMediaCache {c : Cache} {url : Text} {background : Bool}
    (h : entry ∈ (c.requestMediaCache device url background now).1.rows) :
    ∃ old ∈ c.rows, old.2.rel = entry.2.rel := by
  unfold Cache.requestMediaCache at h
  split at h
  · exact ⟨entry, h, rfl⟩
  simp only [] at h
  split at h
  · exact ⟨entry, h, rfl⟩
  split at h
  · rename_i hit hlook
    split at h
    · rcases mem_set h with rfl | ⟨hold, -⟩
      · exact ⟨_, mem_of_lookup hlook, rfl⟩
      exact ⟨entry, hold, rfl⟩
    exact ⟨entry, h, rfl⟩
  exact ⟨entry, h, rfl⟩

theorem removals_requestMediaCache (c : Cache) (url : Text) (background : Bool) (now : Int) :
    (c.requestMediaCache device url background now).1.removals = c.removals := by
  unfold Cache.requestMediaCache
  split
  · rfl
  simp only []
  split
  · rfl
  split
  · split
    · rfl
    rfl
  rfl

/-- Nothing but the cache changes, and its rows have the names of earlier rows. -/
theorem backed_of_names (h : Backed s) {cache : Cache} (hremov : cache.removals = s.cache.removals)
    (hnames : ∀ entry ∈ cache.rows, ∃ old ∈ s.cache.rows, old.2.rel = entry.2.rel) :
    Backed { s with cache := cache } := by
  intro entry hentry
  obtain ⟨old, hold, hname⟩ := hnames entry hentry
  change (s.files entry.2.rel).isSome = true ∧ entry.2.rel ∉ cache.removals
  rw [hremov, ← hname]
  exact h old hold

theorem backed_of_rows (h : Backed s) {cache : Cache} (hrows : cache.rows = s.cache.rows)
    (hremov : cache.removals = s.cache.removals) : Backed { s with cache := cache } := by
  apply backed_of_names h hremov
  intro entry hentry
  exact ⟨entry, hrows ▸ hentry, rfl⟩

theorem backed_forget {url : Text} (h : Backed s) (hclean : Clean device s (.cache (.forget url))) :
    Backed { s with cache := s.cache.forgetMediaCache device url } := by
  intro entry hentry
  unfold Cache.forgetMediaCache at hentry ⊢
  simp only [] at hentry ⊢
  split at hentry
  case isTrue hnone =>
    rw [if_pos hnone]
    exact h entry hentry
  case isFalse hsome =>
    rw [if_neg hsome]
    obtain ⟨hold, hkey⟩ := mem_delete.mp hentry
    obtain ⟨hfile, hremoval⟩ := h entry hold
    refine ⟨hfile, fun hmem => ?_⟩
    rcases mem_append.mp hmem with hmem | hmem
    · exact hremoval hmem
    obtain ⟨hname, hne⟩ := mem_filter.mp hmem
    rw [mem_singleton] at hname
    rw [decide_eq_true_eq] at hne
    cases hlook : s.cache.rows.lookup (Cache.keyOf device url) with
    | none =>
      change entry.2.rel = ((s.cache.rows.lookup _).map Row.rel).getD [] at hname
      rw [hlook] at hname
      exact hne hname
    | some row =>
      change entry.2.rel = ((s.cache.rows.lookup _).map Row.rel).getD [] at hname
      rw [hlook] at hname
      change entry.2.rel = row.rel at hname
      rw [hname] at hne
      exact hkey (hclean _ (mem_of_lookup hlook) rfl hne entry hold hname)

theorem backed_failed {c : Cache} {key : Text} {skip : Bool}
    (hrows : c.rows = s.cache.rows) (hremov : c.removals = s.cache.removals)
    (hfiles : ∀ entry ∈ s.cache.rows, (next entry.2.rel).isSome = true) (h : Backed s) :
    Backed { s with
      cache := c.finishStore device.limit key (.failed skip) now
      files := next } := by
  obtain ⟨hsame, hkept⟩ := finishStore_failed device.limit c key skip now
  intro entry hentry
  change entry ∈ (c.finishStore device.limit key (.failed skip) now).rows at hentry
  change (next entry.2.rel).isSome = true ∧
    entry.2.rel ∉ (c.finishStore device.limit key (.failed skip) now).removals
  rw [hsame, hrows] at hentry
  rw [hkept, hremov]
  exact ⟨hfiles entry hentry, (h entry hentry).2⟩

theorem backed_finish {c : Cache} (hrows : c.rows = s.cache.rows)
    (hremov : c.removals = s.cache.removals) (h : Backed s)
    (hclean : Clean device s (.finish download outcome now)) :
    Backed { s with
      cache := c.finishStore device.limit download.key
        (storeRemote device s.files download outcome).2 now
      files := (storeRemote device s.files download outcome).1 } := by
  obtain ⟨hstore, hinsertion⟩ := hclean
  have heffect : StoreEffect device s.files (storeRemote device s.files download outcome).1
      download (storeRemote device s.files download outcome).2 := storeRemote_effect
  have hanswers : AnswersWith (storedName device download)
      (arriving device s.files download outcome)
      (storeRemote device s.files download outcome).2 := storeRemote_answers
  cases harrives : arriving device s.files download outcome with
  | none =>
    rw [harrives] at hanswers
    obtain ⟨skip, hfailed⟩ := hanswers
    have hkept : ∀ entry ∈ s.cache.rows,
        ((storeRemote device s.files download outcome).1 entry.2.rel).isSome = true := by
      intro entry hentry
      rcases heffect.kept entry.2.rel (h entry hentry).1 with hkept | ⟨hdamaged, -⟩ | ⟨-, hmoved⟩
      · exact hkept
      · cases hthrew : outcome.threw with
        | false => exact absurd hdamaged (hstore hthrew entry hentry).1
        | true =>
          unfold storeRemote
          rw [if_pos hthrew]
          exact (h entry hentry).1
      obtain ⟨path, rel, bytes, hstored⟩ := hmoved
      rw [hfailed] at hstored
      cases hstored
    rw [hfailed]
    exact backed_failed hrows hremov hkept h
  | some bytes =>
    rw [harrives] at hanswers
    obtain ⟨path, hstored⟩ := hanswers
    have hinsert := hinsertion bytes harrives
    have hkept : ∀ entry ∈ c.rows, entry.1 ≠ download.key →
        ((storeRemote device s.files download outcome).1 entry.2.rel).isSome = true := by
      intro entry hentry hkey
      rw [hrows] at hentry
      exact kept_of_safe hstore hentry (h entry hentry).1 hkey
    have hpend : ∀ entry ∈ c.rows, entry.2.rel ∉ c.removals := by
      intro entry hentry
      rw [hremov]
      exact (h entry (hrows ▸ hentry)).2
    have hsafe : SafeInsertion c download.key (storedName device download) bytes := by
      unfold SafeInsertion
      rw [hrows, hremov]
      exact hinsert
    rw [hstored]
    exact backed_stored hkept hpend (heffect.stored path _ bytes hstored).1 hsafe

theorem backed_step {action : Change} (hc : s.cache.Between device) (h : Backed s)
    (hclean : Clean device s action) (hstep : change device s action = some t) : Backed t := by
  cases action with
  | cache inner =>
    simp only [change] at hstep
    split at hstep
    · cases hstep
    obtain ⟨cache, hcache, rfl⟩ := map_eq_some_iff.mp hstep
    cases inner with
    | request url background now =>
      cases hcache
      exact backed_of_names h (removals_requestMediaCache _ _ _ _)
        fun entry hentry => rel_requestMediaCache hentry
    | warm =>
      cases hcache
      split
      · exact h
      exact h
    | forget url =>
      cases hcache
      exact backed_forget h hclean
    | reset =>
      cases hcache
      exact backed_of_rows h hc.reset.2.rows hc.reset.2.removals
    | loaded items =>
      simp only [step] at hcache
      split at hcache
      · cases hcache
        cases items with
        | none => exact fun _ hentry => absurd hentry not_mem_nil
        | some items =>
          intro entry hentry
          rcases mem_applyIndex hentry with ⟨hold, -⟩ |
            ⟨front, item, back, hsplit, hkeeps, hlast, hname⟩
          · exact h entry hold
          rw [hname]
          exact hclean front item back hsplit hkeeps hlast
      cases hcache
    | proceed continuation =>
      obtain ⟨hrows, hremov⟩ := proceed_frame hc hcache
      exact backed_of_rows h hrows hremov
    | finish download result now => simp [isStorage] at *
    | removed rel =>
      simp only [step] at hcache
      split at hcache
      · rename_i hmem
        cases hcache
        intro entry hentry
        obtain ⟨hfile, hremoval⟩ := h entry hentry
        have hne : entry.2.rel ≠ rel := fun heq => hremoval (heq ▸ hmem)
        refine ⟨?_, fun hkept => hremoval (mem_of_mem_erase hkept)⟩
        simp only [filesAfter, Files.remove]
        rw [update_of_ne hne]
        exact hfile
      cases hcache
  | finish download outcome now =>
    obtain ⟨cache, hcache, rfl⟩ := map_eq_some_iff.mp hstep
    simp only [step] at hcache
    split at hcache
    · cases hcache
      exact backed_finish rfl rfl h hclean
    cases hcache
  | deadline download now =>
    obtain ⟨cache, hcache, rfl⟩ := map_eq_some_iff.mp hstep
    simp only [step] at hcache
    split at hcache
    · cases hcache
      exact backed_failed rfl rfl (fun entry hentry => (h entry hentry).1) h
    cases hcache
  | late download outcome =>
    simp only [change] at hstep
    split at hstep
    · cases hstep
      intro entry hentry
      obtain ⟨hfile, hremoval⟩ := h entry hentry
      exact ⟨kept_of_safe hclean hentry hfile id, hremoval⟩
    cases hstep

theorem backed_reachable (hs : (mediaStore device).ReachableBy (Clean device) s) : Backed s := by
  have hall : (mediaStore device).Reachable s ∧ Backed s := by
    apply hs.invariant (fun s => (mediaStore device).Reachable s ∧ Backed s)
    · intro s hs
      refine ⟨Machine.reachableBy_initial hs, ?_⟩
      intro entry hentry
      rw [hs.1] at hentry
      cases hentry
    intro s action t hclean h hstep
    exact ⟨h.1.extend (Machine.Path.single trivial hstep),
      backed_step (between_reachable (cache_reachable h.1)) h.2 hclean hstep⟩
  exact hall.2

/-- In every run whose steps are clean each row names a stored file that the cache has
not removed and is not about to remove, and so does the row that an insertion makes.
In every run the rows are within the budget after each insertion. -/
theorem rows_backed_and_bounded (device : Device) :
    (∀ s, (mediaStore device).ReachableBy (Clean device) s → ∀ entry ∈ s.cache.rows,
      (s.files entry.2.rel).isSome = true ∧ entry.2.rel ∉ s.cache.removals) ∧
    (∀ s t download outcome now bytes, (mediaStore device).ReachableBy (Clean device) s →
      Clean device s (.finish download outcome now) →
      change device s (.finish download outcome now) = some t →
      arriving device s.files download outcome = some bytes →
      t.cache.rows.rel download.key = storedName device download ∧
        (t.files (storedName device download)).isSome = true ∧
        storedName device download ∉ t.cache.removals) ∧
    (∀ s t download outcome now bytes, (mediaStore device).Reachable s →
      change device s (.finish download outcome now) = some t →
      arriving device s.files download outcome = some bytes →
      totalBytes t.cache.rows ≤ maxTotalBytes) := by
  have hstored : ∀ s t download outcome now bytes,
      change device s (.finish download outcome now) = some t →
      arriving device s.files download outcome = some bytes → bytes ≤ maxFileBytes ∧
        ∃ path, t.cache = ({ s.cache with
          downloads := s.cache.downloads.erase download } : Cache).finishStore device.limit
            download.key (.stored path (storedName device download) bytes) now := by
    intro s t download outcome now bytes hstep harrives
    obtain ⟨cache, hcache, rfl⟩ := map_eq_some_iff.mp hstep
    have hanswers : AnswersWith (storedName device download)
        (arriving device s.files download outcome)
        (storeRemote device s.files download outcome).2 := storeRemote_answers
    rw [harrives] at hanswers
    obtain ⟨path, hanswer⟩ := hanswers
    simp only [step] at hcache
    split at hcache
    · rw [hanswer] at hcache
      exact ⟨(storeRemote_effect.stored path _ bytes hanswer).2, path, (some.inj hcache).symm⟩
    cases hcache
  refine ⟨fun s hs => backed_reachable hs, ?_, ?_⟩
  · intro s t download outcome now bytes hs hclean hstep harrives
    obtain ⟨-, path, hcache⟩ := hstored s t download outcome now bytes hstep harrives
    have hrel : t.cache.rows.lookup download.key =
        some ⟨path, storedName device download, bytes, now⟩ := by
      rw [hcache, (finishStore_stored _ _ _ _ _ _ _).1, lookup_set, if_pos rfl]
    have hbacked : Backed t := backed_reachable (hs.extend (Machine.Path.single hclean hstep))
    refine ⟨by rw [Rows.rel, hrel]; rfl, hbacked _ (mem_of_lookup hrel)⟩
  intro s t download outcome now bytes hs hstep harrives
  obtain ⟨hbytes, path, hcache⟩ := hstored s t download outcome now bytes hstep harrives
  have hkeys := keys_reachable (cache_reachable hs)
  rw [hcache]
  exact totalBytes_stored _ hkeys hbytes

def page (files : Files) : Stored := ⟨started, files, []⟩

theorem page_initial (files : Files) : (mediaStore browser).initial (page files) := ⟨rfl, rfl⟩

def answered : Outcome := ⟨false, some 7, false, false, "blob:1".toList⟩

def imageDownload (legacyKey : Text) : Download := ⟨imageUrl, imageUrl, legacyKey, false⟩

/-- The image is requested, and its download starts. -/
def downloading (items : List Cache.Item) : List Change :=
  [.cache (.request imageUrl false 0), .cache (.loaded (some items)),
    .cache (.proceed ⟨imageUrl, false⟩)]

theorem rows_backed_and_bounded_one : ∃ t : Stored, t.cache.rows.rel imageUrl = imageUrl ∧
    (t.files imageUrl).isSome = true ∧ totalBytes t.cache.rows ≤ maxTotalBytes := by
  have hrun : ((mediaStore browser).execute (page fun _ => none) (downloading [])).any
      (fun s => s.cache.rows = [] && s.cache.removals = [] &&
        (change browser s (.finish (imageDownload []) answered 1)).isSome &&
        arriving browser s.files (imageDownload []) answered = some 7) = true := by
    decide +kernel
  obtain ⟨s, hs, hchecked⟩ := (any_eq_true _ _).mp hrun
  simp only [Bool.and_eq_true, decide_eq_true_eq] at hchecked
  obtain ⟨⟨⟨hrows, hremov⟩, hfinish⟩, harrives⟩ := hchecked
  obtain ⟨t, ht⟩ := isSome_iff_exists.mp hfinish
  have hpath : (mediaStore browser).Path (Clean browser) (page fun _ => none) s := by
    apply Machine.path_of_execute_by (fun _ => True) (fun _ _ _ _ _ _ => trivial) _ trivial hs
    intro s action haction _
    simp only [downloading, mem_cons, not_mem_nil, or_false] at haction
    rcases haction with rfl | rfl | rfl
    · trivial
    · intro front item back hnil
      cases front with
      | nil | cons => cases hnil
    trivial
  have hreach : (mediaStore browser).ReachableBy (Clean browser) s :=
    ⟨_, page_initial _, hpath⟩
  have hclean : Clean browser s (.finish (imageDownload []) answered 1) := by
    refine ⟨fun _ entry hentry => ?_, fun bytes _ => ⟨?_, fun victim hvictim => ?_⟩⟩
    · rw [hrows] at hentry
      cases hentry
    · rw [hremov]
      exact not_mem_nil
    rw [hrows] at hvictim
    cases hvictim
  obtain ⟨-, hins, hbudget⟩ := rows_backed_and_bounded browser
  obtain ⟨hrel, hfile, -⟩ := hins s t _ _ _ _ hreach hclean ht harrives
  exact ⟨t, hrel, hfile, hbudget s t _ _ _ _ hreach.reachable ht harrives⟩

/-- An index of as many rows of the greatest size as the budget allows. The image is
the oldest. -/
def fullIndex : List Cache.Item :=
  ⟨imageUrl, imageUrl, maxFileBytes, 0⟩ :: (List.range 124).map fun i =>
    ⟨[Char.ofNat (0x4e00 + i)], [Char.ofNat (0x4e00 + i)], maxFileBytes, i + 1⟩

/-- The blob of the oldest row is read; the insertion of its row removes it. -/
theorem insertion_removes_its_blob : ∃ s : Stored, (mediaStore browser).Reachable s ∧
    s.cache.rows.rel imageUrl = imageUrl ∧ s.files imageUrl = none := by
  have hrun : ((mediaStore browser).execute (page fun _ => some maxFileBytes)
      (downloading fullIndex ++ [.finish (imageDownload imageUrl) answered 1,
        .cache (.removed imageUrl)])).any
      (fun s => s.cache.rows.rel imageUrl = imageUrl && s.files imageUrl = none) = true := by
    decide +kernel
  obtain ⟨s, hs, hchecked⟩ := (any_eq_true _ _).mp hrun
  simp only [Bool.and_eq_true, decide_eq_true_eq] at hchecked
  exact ⟨s, Machine.reachable_of_execute (page_initial _) hs, hchecked⟩

end ImApp.MediaCache
