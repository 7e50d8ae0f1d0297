import ImApp.ChatClient.GroupRetention
import Mathlib.Data.List.Nodup

/-!
Tombstones never go back. Memory holds what storage holds for the owner, so that
a boundary survives a restart and a change of owners, and a response either is
dropped or moves boundaries on.
-/

namespace ImApp.ChatClient

open JsonText (Text)
open StepSystem List Option Function States

variable {dateParses : Text → Bool}

namespace States

variable {states : States dateParses} {row : Tombstone dateParses} {id : Text}

theorem get_cons (head : Tombstone dateParses) (states : States dateParses) (id : Text) :
    get (head :: states) id = if head.conversationId = id then some head else get states id := by
  rw [get, find?_cons]
  split
  case h_1 hhead => rw [if_pos (by simpa using hhead)]
  case h_2 hhead => rw [if_neg (by simpa using hhead), get]

theorem get_map_self (hany : states.any (fun prev => prev.conversationId = row.conversationId)) :
    get (states.map (fun prev => if prev.conversationId = row.conversationId then row else prev))
      row.conversationId = some row := by
  induction states with
  | nil => cases hany
  | cons head states ih =>
    rw [map_cons, get_cons]
    rcases eq_or_ne head.conversationId row.conversationId with hhead | hhead
    · rw [if_pos hhead, if_pos rfl]
    rw [if_neg hhead, if_neg hhead]
    apply ih
    simpa [hhead] using hany

theorem get_map_other (hother : row.conversationId ≠ id) :
    get (states.map (fun prev => if prev.conversationId = row.conversationId then row else prev))
      id = get states id := by
  induction states with
  | nil => rfl
  | cons head states ih =>
    rw [map_cons, get_cons, get_cons, ih]
    rcases eq_or_ne head.conversationId row.conversationId with hhead | hhead
    · rw [if_pos hhead, if_neg hother, if_neg (hhead.symm ▸ hother)]
    rw [if_neg hhead]

theorem any_eq_false_iff :
    states.any (fun prev => prev.conversationId = id) = false ↔ states.get id = none := by
  simp [get]

theorem get_set_self : (states.set row).get row.conversationId = some row := by
  rw [set]
  split
  case isTrue hany => exact get_map_self hany
  case isFalse hany =>
    have hnone := any_eq_false_iff.mp (Bool.eq_false_iff.mpr hany)
    rw [get] at hnone
    rw [get, find?_append, hnone]
    simp

theorem get_set_other (hother : row.conversationId ≠ id) :
    (states.set row).get id = states.get id := by
  rw [set]
  split
  · exact get_map_other hother
  rw [get, get, find?_append]
  simp [hother]

theorem set_of_get_none (h : states.get row.conversationId = none) :
    states.set row = states ++ [row] := by
  rw [set, if_neg]
  rw [any_eq_false_iff.mpr h]
  exact Bool.false_ne_true

/-- One row for each group. -/
def Keyed (states : States dateParses) : Prop := (states.map Tombstone.conversationId).Nodup

theorem Keyed.set (h : Keyed states) : Keyed (states.set row) := by
  rw [States.set]
  split
  · rw [Keyed, List.map_map]
    have hkeys : (Tombstone.conversationId ∘ fun prev =>
        if prev.conversationId = row.conversationId then row else prev) =
          Tombstone.conversationId := by
      funext prev
      rw [comp_apply]
      split
      case isTrue hprev => exact hprev.symm
      · rfl
    rwa [hkeys]
  case isFalse hany =>
    rw [Keyed, map_append]
    refine nodup_append.mpr ⟨h, nodup_singleton _, ?_⟩
    rintro id hid _ hrow rfl
    obtain rfl := mem_singleton.mp hrow
    obtain ⟨prev, hprev, hkey⟩ := mem_map.mp hid
    exact hany (any_eq_true.mpr ⟨prev, hprev, by simp [hkey]⟩)

end States

/-- No boundary is lower in `after`. -/
def Covers (before after : States dateParses) : Prop := ∀ id, before.minSeq id ≤ after.minSeq id

theorem Covers.refl (states : States dateParses) : Covers states states := fun _ => Nat.le_refl _

theorem Covers.trans {first second third : States dateParses} (h : Covers first second)
    (h' : Covers second third) : Covers first third :=
  fun id => Nat.le_trans (h id) (h' id)

theorem covers_merge (states : States dateParses) (row : Tombstone dateParses) :
    Covers states (merge states row) := by
  intro id
  rw [merge]
  split
  · exact Nat.le_refl _
  case isFalse hcur =>
    rcases eq_or_ne row.conversationId id with rfl | hother
    · rw [States.minSeq, States.minSeq, get_set_self]
      cases hprev : states.get row.conversationId with
      | none => exact Nat.zero_le _
      | some prev =>
        rw [hprev] at hcur
        simp only [any_some, outdated, Bool.or_eq_true, decide_eq_true_eq, not_or, not_lt] at hcur
        exact hcur.2
    rw [States.minSeq, States.minSeq, get_set_other hother]

theorem covers_foldl (rows : List (Tombstone dateParses)) (states : States dateParses) :
    Covers states (rows.foldl merge states) := by
  induction rows generalizing states with
  | nil => exact Covers.refl states
  | cons row rows ih => exact (covers_merge states row).trans (ih _)

theorem minSeq_merge (states : States dateParses) {row : Tombstone dateParses} {id : Text}
    (h : advances states row = true → row.conversationId ≠ id) :
    (merge states row).minSeq id = states.minSeq id := by
  rw [merge]
  split
  · rfl
  case isFalse hcur =>
    rcases eq_or_ne row.conversationId id with rfl | hother
    · have hstill : advances states row = false := by
        rw [Bool.eq_false_iff]
        intro hadvances
        exact h hadvances rfl
      rw [advances] at hstill
      rw [States.minSeq, States.minSeq, get_set_self]
      cases hprev : states.get row.conversationId with
      | none => simp [hprev] at hstill
      | some prev =>
        rw [hprev] at hcur hstill
        simp only [any_some, outdated, Bool.or_eq_true, decide_eq_true_eq, not_or,
          not_le, not_lt, Bool.and_eq_false_iff, Bool.not_eq_eq_eq_not, Bool.not_false,
          decide_eq_false_iff_not] at hcur hstill
        simp only [map_some, getD_some]
        omega
    rw [States.minSeq, States.minSeq, get_set_other hother]

theorem minSeq_foldl {rows : List (Tombstone dateParses)} {states : States dateParses} {id : Text}
    (h : id ∉ changedGroups states rows) :
    (rows.foldl merge states).minSeq id = states.minSeq id := by
  induction rows generalizing states with
  | nil => rfl
  | cons row rows ih =>
    rw [changedGroups, mem_append, not_or] at h
    calc (rows.foldl merge (merge states row)).minSeq id = (merge states row).minSeq id := ih h.2
      _ = states.minSeq id := by
        apply minSeq_merge
        rintro hadvances rfl
        apply h.1
        rw [if_pos hadvances]
        exact mem_singleton_self _

theorem keyed_merge {states : States dateParses} (h : states.Keyed) (row : Tombstone dateParses) :
    (merge states row).Keyed := by
  rw [merge]
  split
  · exact h
  exact h.set

theorem keyed_foldl {states : States dateParses} (h : states.Keyed)
    (rows : List (Tombstone dateParses)) : (rows.foldl merge states).Keyed := by
  induction rows generalizing states with
  | nil => exact h
  | cons row rows ih => exact ih (keyed_merge h row)

theorem keyed_load (stored : Stored) : (load stored : States dateParses).Keyed := by
  have hfold : ∀ (rows : List (Option RawRow)) (states : States dateParses), states.Keyed →
      (rows.foldl mergeStored states).Keyed := by
    intro rows
    induction rows with
    | nil =>
      intro states h
      exact h
    | cons row rows ih =>
      intro states h
      apply ih
      rw [mergeStored]
      cases validState row with
      | none => exact h
      | some tombstone => exact keyed_merge h tombstone
  exact hfold _ [] nodup_nil

theorem load_store {states : States dateParses} (h : states.Keyed) : load (store states) = states := by
  have hfold : ∀ loaded rest : States dateParses, States.Keyed (loaded ++ rest) →
      (rest.map (fun row => some row.1)).foldl mergeStored loaded = loaded ++ rest := by
    intro loaded rest
    induction rest generalizing loaded with
    | nil =>
      intro _
      rw [append_nil]
      rfl
    | cons row rest ih =>
      intro hkeyed
      have hnone : loaded.get row.conversationId = none := by
        rw [← any_eq_false_iff, Bool.eq_false_iff]
        intro hany
        obtain ⟨prev, hprev, hkey⟩ := any_eq_true.mp hany
        rw [States.Keyed, map_append, nodup_append] at hkeyed
        exact hkeyed.2.2 _ (mem_map_of_mem hprev) row.conversationId
          (mem_map_of_mem mem_cons_self) (by simpa using hkey)
      have hmerge : merge loaded row = loaded ++ [row] := by
        rw [merge, hnone, any_none, if_neg Bool.false_ne_true, set_of_get_none hnone]
      rw [map_cons, foldl_cons, mergeStored, validState_val]
      simp only [hmerge]
      rw [ih (loaded ++ [row]) (by rwa [append_assoc, singleton_append]),
        append_assoc, singleton_append]
  exact hfold [] states h

/-- A response has a row that is invalid or not asked for, or two rows of one
group. -/
def Bad (dateParses : Text → Bool) (ids : List Text) (rows : List (Option RawRow)) : Prop :=
  (∃ row ∈ rows, @validState dateParses row = none) ∨
    (∃ row ∈ rows, ∃ tombstone : Tombstone dateParses,
      validState row = some tombstone ∧ tombstone.conversationId ∉ ids) ∨
    ¬ ((rows.filterMap (@validState dateParses)).map Tombstone.conversationId).Nodup

variable {ids : List Text} {rows : List (Option RawRow)}

theorem checkRows_cons {seen : List Text} {row : Option RawRow}
    {checked : List (Tombstone dateParses)} (h : checkRows ids seen (row :: rows) = some checked) :
    ∃ tombstone more, validState row = some tombstone ∧ tombstone.conversationId ∈ ids ∧
      tombstone.conversationId ∉ seen ∧
      checkRows ids (tombstone.conversationId :: seen) rows = some more ∧
      checked = tombstone :: more := by
  rw [checkRows] at h
  split at h
  · cases h
  case h_2 tombstone hvalid =>
    split at h
    · cases h
    case isFalse hasked =>
      obtain ⟨more, hmore, rfl⟩ := map_eq_some_iff.mp h
      simp only [Bool.or_eq_true, Bool.not_eq_true', contains_eq_mem,
        decide_eq_true_eq, decide_eq_false_iff_not, not_or, not_not] at hasked
      exact ⟨tombstone, more, hvalid, hasked.1, hasked.2, hmore, rfl⟩

theorem checkRows_good {seen : List Text}
    {checked : List (Tombstone dateParses)} (h : checkRows ids seen rows = some checked) :
    rows.map validState = checked.map some ∧
      (∀ tombstone ∈ checked, tombstone.conversationId ∈ ids) ∧
      (∀ tombstone ∈ checked, tombstone.conversationId ∉ seen) ∧
      (checked.map Tombstone.conversationId).Nodup := by
  induction rows generalizing seen checked with
  | nil =>
    cases h
    simp
  | cons row rows ih =>
    obtain ⟨tombstone, more, hvalid, hids, hseen, hmore, rfl⟩ := checkRows_cons h
    obtain ⟨hvalids, hall, hfresh, hnodup⟩ := ih hmore
    refine ⟨?_, forall_mem_cons.mpr ⟨hids, hall⟩, ?_, ?_⟩
    · rw [map_cons, map_cons, hvalid, hvalids]
    · refine forall_mem_cons.mpr ⟨hseen, ?_⟩
      intro other hother hmem
      exact hfresh other hother (mem_cons_of_mem _ hmem)
    refine nodup_cons.mpr ⟨?_, hnodup⟩
    intro hmem
    obtain ⟨other, hother, hkey⟩ := mem_map.mp hmem
    exact hfresh other hother (hkey ▸ mem_cons_self)

theorem accepted_of_bad (h : Bad dateParses ids rows) :
    accepted ids (.items (some rows)) = (none : Option (List (Tombstone dateParses))) := by
  rw [accepted]
  split
  · rfl
  cases hcheck : @checkRows dateParses ids [] rows with
  | none => rfl
  | some checked =>
    obtain ⟨hvalid, hids, -, hnodup⟩ := checkRows_good hcheck
    have hrow : ∀ row ∈ rows, ∃ tombstone ∈ checked, validState row = some tombstone := by
      intro row hrow
      have hmem : validState row ∈ checked.map some := by
        rw [← hvalid]
        exact mem_map_of_mem hrow
      obtain ⟨tombstone, htombstone, heq⟩ := mem_map.mp hmem
      exact ⟨tombstone, htombstone, heq.symm⟩
    rcases h with ⟨row, hmem, hnone⟩ | ⟨row, hmem, tombstone, hsome, hnot⟩ | hdouble
    · obtain ⟨tombstone, -, hsome⟩ := hrow row hmem
      rw [hnone] at hsome
      cases hsome
    · obtain ⟨other, hother, hsome'⟩ := hrow row hmem
      cases hsome.symm.trans hsome'
      exact absurd (hids _ hother) hnot
    have hchecked : rows.filterMap (@validState dateParses) = checked := by
      calc rows.filterMap validState = (rows.map validState).filterMap id := by
            rw [filterMap_map]
            rfl
        _ = (checked.map some).filterMap id := by rw [hvalid]
        _ = checked := by
            rw [filterMap_map]
            exact filterMap_some
    rw [hchecked] at hdouble
    exact absurd hnodup hdouble

/-- Memory holds what storage holds for the owner. Calls and requests of the
present generation were made for the present owner, when someone is signed in. -/
structure SyncInvariant (world : World dateParses) : Prop where
  loaded : world.sync.owner ≠ [] → world.sync.states = load (world.disk world.sync.owner)
  keyed : world.sync.states.Keyed
  generation : ∀ task ∈ world.tasks, task.generation ≤ world.sync.generation
  owner : ∀ task ∈ world.tasks, task.generation = world.sync.generation →
    world.sync.owner ≠ [] ∧ task.owner = world.sync.owner
  calls : ∀ call ∈ world.calls, call.generation ≤ world.sync.generation ∧
    (call.generation = world.sync.generation → world.sync.owner ≠ [])

theorem setOwner_loaded {disk : Text → Stored} {owner : Text} {sync : Sync dateParses}
    (h : sync.owner ≠ [] → sync.states = load (disk sync.owner)) (hkeyed : sync.states.Keyed) :
    ((setOwner disk owner sync).owner ≠ [] →
        (setOwner disk owner sync).states = load (disk (setOwner disk owner sync).owner)) ∧
      (setOwner disk owner sync).states.Keyed := by
  rw [setOwner]
  split
  · exact ⟨h, hkeyed⟩
  refine ⟨fun hne => if_neg hne, ?_⟩
  simp only
  generalize (if isOwner owner = true then owner else []) = chosen
  split
  · exact nodup_nil
  exact keyed_load _

theorem setOwner_generation (disk : Text → Stored) (owner : Text) (sync : Sync dateParses) :
    setOwner disk owner sync = sync ∨
      (setOwner disk owner sync).generation = sync.generation + 1 := by
  rw [setOwner]
  split
  · exact .inl rfl
  exact .inr rfl

/-- What an answer does: nothing, or it takes over a checked response for the
present generation. -/
theorem answer_cases (world : World dateParses) (task : Task) (reply : Reply) (now : Nat) :
    answer world task reply now = world ∨
      ∃ rows, accepted task.ids reply = some rows ∧ task.generation = world.sync.generation ∧
        answer world task reply now = commit world task.ids rows now := by
  rw [answer]
  split
  · exact .inl rfl
  case isFalse hgen =>
    cases hacc : accepted task.ids reply with
    | none => exact .inl rfl
    | some rows => exact .inr ⟨rows, rfl, not_not.mp hgen, rfl⟩

variable {world : World dateParses}

theorem commit_loaded (hinv : SyncInvariant world) (ids : List Text)
    (rows : List (Tombstone dateParses)) (now : Nat) :
    (world.sync.owner ≠ [] → (commit world ids rows now).sync.states =
        load ((commit world ids rows now).disk world.sync.owner)) := by
  intro howner
  simp only [commit]
  split
  case isTrue hsame =>
    rw [hsame]
    exact hinv.loaded howner
  · rw [update_self, load_store (keyed_foldl hinv.keyed rows)]

theorem nextBatch_cases (world : World dateParses) (call : Call) :
    nextBatch world call = world ∨ call.generation = world.sync.generation ∧
      ∃ ids, nextBatch world call = { world with
        tasks := world.tasks ++ [⟨ids, world.sync.generation, world.sync.owner⟩] } := by
  rw [nextBatch]
  split
  · exact .inl rfl
  split
  · exact .inl rfl
  case isFalse hgen =>
    split
    · exact .inl rfl
    exact .inr ⟨not_not.mp hgen, _, rfl⟩

theorem syncInvariant_initial (h : (machine dateParses).initial world) : SyncInvariant world := by
  obtain ⟨hsync, htasks, hcalls⟩ := h
  refine ⟨?_, ?_, by simp [htasks], by simp [htasks], by simp [hcalls]⟩
  · intro howner
    rw [hsync] at howner
    exact absurd rfl howner
  rw [hsync]
  exact nodup_nil

section

variable (hinv : SyncInvariant world)
include hinv

theorem SyncInvariant.setOwner
    (owner : Text) : SyncInvariant { world with sync := setOwner world.disk owner world.sync } := by
  obtain ⟨hloaded, hkeyed⟩ := setOwner_loaded hinv.loaded hinv.keyed
  rcases setOwner_generation world.disk owner world.sync with hsame | hnew
  · rw [hsame]
    exact hinv
  refine ⟨hloaded, hkeyed, ?_, ?_, ?_⟩
  · intro task htask
    have hle := hinv.generation task htask
    simp only [hnew]
    omega
  · intro task htask hgen
    have hle := hinv.generation task htask
    simp only [hnew] at hgen
    omega
  intro call hcall
  have hle := (hinv.calls call hcall).1
  simp only [hnew]
  omega

theorem SyncInvariant.nextBatch
    {index : Nat} {call : Call} (hcall : world.calls[index]? = some call) :
    SyncInvariant { nextBatch world call with
      calls := world.calls.set index { call with batches := call.batches.drop 1 } } := by
  have hmem := mem_of_getElem? hcall
  have hcalls : ∀ other ∈ world.calls.set index { call with batches := call.batches.drop 1 },
      other.generation ≤ world.sync.generation ∧
        (other.generation = world.sync.generation → world.sync.owner ≠ []) := by
    intro other hother
    rcases mem_or_eq_of_mem_set hother with hother | rfl
    · exact hinv.calls other hother
    exact hinv.calls call hmem
  rcases nextBatch_cases world call with hsame | ⟨hgen, ids, hnew⟩
  · rw [hsame]
    exact ⟨hinv.loaded, hinv.keyed, hinv.generation, hinv.owner, hcalls⟩
  rw [hnew]
  refine ⟨hinv.loaded, hinv.keyed, ?_, ?_, hcalls⟩
  · intro task htask
    rcases mem_append.mp htask with htask | htask
    · exact hinv.generation task htask
    rw [mem_singleton.mp htask]
  intro task htask htaskGeneration
  rcases mem_append.mp htask with htask | htask
  · exact hinv.owner task htask htaskGeneration
  rw [mem_singleton.mp htask]
  exact ⟨(hinv.calls call hmem).2 hgen, rfl⟩

theorem SyncInvariant.answer (task : Task) (index : Nat) (reply : Reply) (now : Nat) :
    SyncInvariant { answer world task reply now with tasks := world.tasks.eraseIdx index } := by
  rcases answer_cases world task reply now with hsame | ⟨rows, -, -, hcommit⟩
  · rw [hsame]
    exact ⟨hinv.loaded, hinv.keyed,
      fun task htask => hinv.generation task (mem_of_mem_eraseIdx htask),
      fun task htask => hinv.owner task (mem_of_mem_eraseIdx htask), hinv.calls⟩
  rw [hcommit]
  exact ⟨commit_loaded hinv task.ids rows now, keyed_foldl hinv.keyed rows,
    fun task htask => hinv.generation task (mem_of_mem_eraseIdx htask),
    fun task htask => hinv.owner task (mem_of_mem_eraseIdx htask), hinv.calls⟩

theorem syncInvariant_step {next : World dateParses} {action : Action} (hstep : step world action = some next) : SyncInvariant next := by
  cases action with
  | setOwner owner =>
    cases hstep
    exact hinv.setOwner owner
  | sync ids force now =>
    simp only [step] at hstep
    split at hstep
    · cases hstep
      exact hinv
    case isFalse howner =>
      cases hstep
      refine ⟨hinv.loaded, hinv.keyed, hinv.generation, hinv.owner, ?_⟩
      intro call hcall
      rcases mem_append.mp hcall with hcall | hcall
      · exact hinv.calls call hcall
      rw [mem_singleton.mp hcall]
      exact ⟨Nat.le_refl _, fun _ => howner⟩
  | nextBatch index =>
    obtain ⟨call, hcall, rfl⟩ := map_eq_some_iff.mp hstep
    exact hinv.nextBatch hcall
  | answer index reply now =>
    obtain ⟨task, -, rfl⟩ := map_eq_some_iff.mp hstep
    exact hinv.answer task index reply now
  | restart =>
    cases hstep
    exact ⟨fun howner => absurd rfl howner, nodup_nil, by simp, by simp, by simp⟩

end

theorem syncInvariant (h : (machine dateParses).Reachable world) : SyncInvariant world :=
  h.invariant SyncInvariant (fun _ => syncInvariant_initial)
    (fun _ _ _ _ hinv hstep => syncInvariant_step hinv hstep)

/-- The boundaries in the storage of every owner are no lower in `after`. -/
def DiskCovers (before after : World dateParses) : Prop :=
  ∀ owner, Covers (@load dateParses (before.disk owner)) (load (after.disk owner))

theorem diskCovers_of_eq {before after : World dateParses} (h : after.disk = before.disk) :
    DiskCovers before after := by
  intro owner
  rw [h]
  exact Covers.refl _

theorem commit_disk (hinv : SyncInvariant world)
    (howner : world.sync.owner ≠ []) (ids : List Text) (rows : List (Tombstone dateParses))
    (now : Nat) : DiskCovers world (commit world ids rows now) ∧
      ∀ owner, owner ≠ world.sync.owner → (commit world ids rows now).disk owner =
        world.disk owner := by
  have hcovers : Covers (@load dateParses (world.disk world.sync.owner))
      (load ((commit world ids rows now).disk world.sync.owner)) := by
    rw [← hinv.loaded howner, ← commit_loaded hinv ids rows now howner]
    exact covers_foldl rows world.sync.states
  have hother : ∀ owner, owner ≠ world.sync.owner → (commit world ids rows now).disk owner =
      world.disk owner := by
    intro owner hne
    simp only [commit]
    split
    · rfl
    exact update_of_ne hne _ _
  refine ⟨?_, hother⟩
  intro owner
  rcases eq_or_ne owner world.sync.owner with rfl | hne
  · exact hcovers
  rw [hother owner hne]
  exact Covers.refl _

theorem diskCovers_step {next : World dateParses} {action : Action}
    (hinv : SyncInvariant world) (hstep : step world action = some next) :
    DiskCovers world next := by
  cases action with
  | setOwner owner | restart =>
    cases hstep
    exact diskCovers_of_eq rfl
  | sync ids force now =>
    simp only [step] at hstep
    split at hstep <;> obtain rfl := some.inj hstep <;> exact diskCovers_of_eq rfl
  | nextBatch index =>
    obtain ⟨call, -, rfl⟩ := map_eq_some_iff.mp hstep
    apply diskCovers_of_eq
    rcases nextBatch_cases world call with hsame | ⟨-, ids, hnew⟩
    · rw [hsame]
    rw [hnew]
  | answer index reply now =>
    obtain ⟨task, htask, rfl⟩ := map_eq_some_iff.mp hstep
    rcases answer_cases world task reply now with hsame | ⟨rows, -, hgen, hcommit⟩
    · rw [hsame]
      exact diskCovers_of_eq rfl
    rw [hcommit]
    obtain ⟨howner, -⟩ := hinv.owner task (mem_of_getElem? htask) hgen
    exact (commit_disk hinv howner task.ids rows now).1

/-- Tombstones are durable. Along every run, the boundaries of an owner are no
lower whenever the owner is signed in again. A bad response only ends its
request. The answer to a request touches neither memory nor storage of another
owner than the one it was made for. -/
theorem tombstones_durable {world : World dateParses} (h : (machine dateParses).Reachable world) :
    (∀ later, (machine dateParses).Path Machine.unrestricted world later →
      world.sync.owner ≠ [] → later.sync.owner = world.sync.owner →
        ∀ id, world.sync.minSeq id ≤ later.sync.minSeq id) ∧
    (∀ index reply now next, step world (.answer index reply now) = some next →
      ∃ task, world.tasks[index]? = some task ∧
        (∀ rows, reply = .items (some rows) → Bad dateParses task.ids rows →
          next = { world with tasks := world.tasks.eraseIdx index }) ∧
        (task.owner ≠ world.sync.owner → next.sync = world.sync) ∧
        next.sync.owner = world.sync.owner ∧
        ∀ owner, owner ≠ task.owner → next.disk owner = world.disk owner) := by
  have hinv := syncInvariant h
  refine ⟨?_, ?_⟩
  · intro later hpath howner hsame id
    have hlater := syncInvariant (h.extend hpath)
    have hcovers := hpath.relates SyncInvariant DiskCovers (fun _ => diskCovers_of_eq rfl)
      (fun _ _ _ first second owner => (first owner).trans (second owner))
      (fun _ _ _ _ hinv hstep => syncInvariant_step hinv hstep)
      (fun _ _ _ _ hinv hstep => diskCovers_step hinv hstep) hinv world.sync.owner
    rw [Sync.minSeq, Sync.minSeq, hinv.loaded howner, hlater.loaded (hsame ▸ howner), hsame]
    exact hcovers id
  intro index reply now next hstep
  obtain ⟨task, htask, rfl⟩ := map_eq_some_iff.mp hstep
  refine ⟨task, htask, ?_⟩
  rcases answer_cases world task reply now with hsame | ⟨rows, hacc, hgen, hcommit⟩
  · rw [hsame]
    exact ⟨fun _ _ _ => rfl, fun _ => rfl, rfl, fun _ _ => rfl⟩
  rw [hcommit]
  obtain ⟨howner, hfor⟩ := hinv.owner task (mem_of_getElem? htask) hgen
  refine ⟨?_, fun hne => absurd hfor hne, rfl, ?_⟩
  · rintro bad rfl hbad
    rw [accepted_of_bad hbad] at hacc
    cases hacc
  rw [hfor]
  exact (commit_disk hinv howner task.ids rows now).2

def sampleGroup : Text := "sg_0123456789abcdef0123456789abcdef".toList

def sampleRow (seq revision : Nat) : RawRow :=
  ⟨.text sampleGroup, .number seq, .number revision, .text []⟩

def allDates : Text → Bool := fun _ => true

def sampleStart : World allDates := ⟨.fresh, fun _ => none, [], []⟩

/-- The group gets the boundary 5. -/
def boundaryActions : List Action :=
  [.setOwner ['u'], .sync [sampleGroup] false 0, .nextBatch 0,
    .answer 0 (.items (some [some (sampleRow 5 2)])) 1]

/-- The client is started again. A request is answered with an older row. -/
def restartActions : List Action :=
  [.restart, .setOwner ['u'], .sync [sampleGroup] true 2, .nextBatch 0,
    .answer 0 (.items (some [some (sampleRow 3 1)])) 3]

/-- The boundary is still there after a restart and a stale response. -/
theorem tombstones_durable_restart : ∃ world later : World allDates,
    world.sync.owner = ['u'] ∧ world.sync.minSeq sampleGroup = 5 ∧
      (machine allDates).execute world restartActions = some later ∧
      5 ≤ later.sync.minSeq sampleGroup := by
  have hrun : ((machine allDates).execute sampleStart boundaryActions).any (fun world =>
      world.sync.owner = ['u'] && world.sync.minSeq sampleGroup = 5 &&
        ((machine allDates).execute world restartActions).any (fun later =>
          later.sync.owner = ['u'])) = true := by decide +kernel
  obtain ⟨world, hworld, hrest⟩ := (any_eq_true _ _).mp hrun
  simp only [Bool.and_eq_true, decide_eq_true_eq] at hrest
  obtain ⟨⟨howner, hseq⟩, hlater⟩ := hrest
  obtain ⟨later, hexecute, hagain⟩ := (any_eq_true _ _).mp hlater
  have hreach := Machine.reachable_of_execute (m := machine allDates) (s := sampleStart)
    ⟨rfl, rfl, rfl⟩ hworld
  have hpath := Machine.path_of_execute hexecute
  refine ⟨world, later, howner, hseq, hexecute, ?_⟩
  rw [← hseq]
  apply (tombstones_durable hreach).1 later hpath
  · rw [howner]
    exact cons_ne_nil _ _
  rw [howner]
  simpa using hagain

end ImApp.ChatClient
