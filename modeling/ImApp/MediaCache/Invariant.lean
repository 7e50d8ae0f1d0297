import ImApp.MediaCache.Queue

/-!
What the queue keeps between its steps. Each callback that was not called waits
under one key; a key with callbacks is waited for by a request that goes on later,
or is in one of the queues, or is being downloaded; and the sets of keys say what
the arrays and the downloads are.
-/

namespace ImApp.MediaCache

open List Function
open JsonText (Text)

namespace Cache

variable {c d : Cache} {key : Text} {limit : Nat} {extra : List Text}

def answered (c : Cache) : List Nat := c.answers.map Prod.fst

structure Listening (c : Cache) : Prop where
  once : c.answered.Nodup
  asked : ∀ callback ∈ c.answered, callback < c.accepted
  waits : ∀ key list, c.listeners key = some list →
    list.Nodup ∧ ∀ callback ∈ list, callback < c.accepted ∧ callback ∉ c.answered
  apart : ∀ key other list list' callback, c.listeners key = some list →
    c.listeners other = some list' → callback ∈ list → callback ∈ list' → key = other
  kept : ∀ callback, callback < c.accepted →
    callback ∈ c.answered ∨ ∃ key list, c.listeners key = some list ∧ callback ∈ list

theorem Listening.of_eq (h : c.Listening) (hlisteners : d.listeners = c.listeners)
    (hanswers : d.answers = c.answers) (hacc : d.accepted = c.accepted) : d.Listening := by
  have hans : d.answered = c.answered := congrArg (List.map Prod.fst) hanswers
  constructor
  · rw [hans]
    exact h.once
  · rw [hans, hacc]
    exact h.asked
  · rw [hlisteners, hans, hacc]
    exact h.waits
  · rw [hlisteners]
    exact h.apart
  rw [hlisteners, hans, hacc]
  exact h.kept

theorem answered_deliver (path : Text) :
    (c.deliver key path).answered = c.answered ++ (c.listeners key).getD [] := by
  have hself : (fun callback : Nat => (callback, path).1) = id := rfl
  simp only [answered, deliver, map_append, map_map, comp_def, hself, List.map_id]

theorem listeners_deliver {path other : Text} {list : List Nat}
    (h : (c.deliver key path).listeners other = some list) :
    other ≠ key ∧ c.listeners other = some list := by
  change Function.update c.listeners key none other = some list at h
  by_cases hother : other = key
  · rw [hother, update_self] at h
    cases h
  rw [update_of_ne hother] at h
  exact ⟨hother, h⟩

theorem Listening.deliver (h : c.Listening) (key path : Text) : (c.deliver key path).Listening := by
  have hlist : ∀ callback ∈ (c.listeners key).getD [], ∃ list, c.listeners key = some list ∧
      callback ∈ list := by
    intro callback hcb
    cases hlisteners : c.listeners key with
    | none => simp [hlisteners] at hcb
    | some list => exact ⟨list, rfl, by simpa [hlisteners] using hcb⟩
  constructor
  · rw [answered_deliver]
    refine nodup_append'.mpr ⟨h.once, ?_, ?_⟩
    · cases hlisteners : c.listeners key with
      | none => exact nodup_nil
      | some list => exact (h.waits key list hlisteners).1
    intro callback hpre hnow
    obtain ⟨list, hlisteners, hmem⟩ := hlist callback hnow
    exact ((h.waits key list hlisteners).2 callback hmem).2 hpre
  · intro callback hcb
    rw [answered_deliver] at hcb
    rcases mem_append.mp hcb with hpre | hnow
    · exact h.asked callback hpre
    obtain ⟨list, hlisteners, hmem⟩ := hlist callback hnow
    exact ((h.waits key list hlisteners).2 callback hmem).1
  · intro other list hlisteners
    obtain ⟨hother, hlisteners⟩ := listeners_deliver hlisteners
    obtain ⟨hnodup, hwaits⟩ := h.waits other list hlisteners
    refine ⟨hnodup, fun callback hcb => ⟨(hwaits callback hcb).1, ?_⟩⟩
    rw [answered_deliver]
    intro hans
    rcases mem_append.mp hans with hpre | hnow
    · exact (hwaits callback hcb).2 hpre
    obtain ⟨list', hlisteners', hmem⟩ := hlist callback hnow
    exact hother (h.apart other key list list' callback hlisteners hlisteners' hcb hmem)
  · intro other other' list list' callback hlisteners hlisteners'
    exact h.apart other other' list list' callback (listeners_deliver hlisteners).2
      (listeners_deliver hlisteners').2
  intro callback hcb
  rw [answered_deliver]
  rcases h.kept callback hcb with hans | ⟨other, list, hlisteners, hmem⟩
  · exact .inl (mem_append_left _ hans)
  by_cases hother : other = key
  · subst hother
    exact .inl (mem_append_right _ (by simpa [hlisteners] using hmem))
  refine .inr ⟨other, list, ?_, hmem⟩
  change Function.update c.listeners key none other = some list
  rw [update_of_ne hother]
  exact hlisteners

theorem Listening.answerNow (h : c.Listening) (key : Text) (hit : Row) (now : Int) :
    (c.answerNow key hit now).Listening := by
  have hans : (c.answerNow key hit now).answered = c.answered ++ [c.accepted] := by
    simp [answered, Cache.answerNow]
  have hfresh : c.accepted ∉ c.answered := fun hmem => lt_irrefl _ (h.asked _ hmem)
  constructor
  · rw [hans]
    refine nodup_append'.mpr ⟨h.once, nodup_singleton _, ?_⟩
    intro callback hpre hnow
    exact hfresh (mem_singleton.mp hnow ▸ hpre)
  · intro callback hcb
    change callback < c.accepted + 1
    rw [hans] at hcb
    rcases mem_append.mp hcb with hpre | hnow
    · have hlt := h.asked callback hpre
      omega
    rw [mem_singleton.mp hnow]
    exact Nat.lt_succ_self _
  · intro other list hlisteners
    obtain ⟨hnodup, hwaits⟩ := h.waits other list hlisteners
    refine ⟨hnodup, fun callback hcb => ?_⟩
    obtain ⟨hlt, hnot⟩ := hwaits callback hcb
    refine ⟨Nat.lt_succ_of_lt hlt, ?_⟩
    rw [hans]
    intro hmem
    rcases mem_append.mp hmem with hpre | hnow
    · exact hnot hpre
    exact hlt.ne (mem_singleton.mp hnow)
  · exact h.apart
  intro callback hcb
  change callback < c.accepted + 1 at hcb
  rw [hans]
  rcases Nat.lt_succ_iff_lt_or_eq.mp hcb with hpre | hnow
  · exact (h.kept callback hpre).imp_left (mem_append_left _)
  exact .inl (mem_append_right _ (mem_singleton.mpr hnow))

theorem Listening.listen (h : c.Listening) (key : Text) (background : Bool) :
    (c.listen key background).Listening := by
  have hlisteners : ∀ other list, (c.listen key background).listeners other = some list →
      (other = key ∧ list = (c.listeners key).getD [] ++ [c.accepted]) ∨
        (other ≠ key ∧ c.listeners other = some list) := by
    intro other list hother
    change Function.update c.listeners key _ other = some list at hother
    by_cases heq : other = key
    · rw [heq, update_self] at hother
      exact .inl ⟨heq, (Option.some.inj hother).symm⟩
    rw [update_of_ne heq] at hother
    exact .inr ⟨heq, hother⟩
  have hold : ((c.listeners key).getD []).Nodup ∧ ∀ callback ∈ (c.listeners key).getD [],
      callback < c.accepted ∧ callback ∉ c.answered := by
    cases hnow : c.listeners key with
    | none => simp
    | some list => exact h.waits key list hnow
  have hother : ∀ other list callback, other ≠ key → c.listeners other = some list →
      callback ∈ list → callback ∉ (c.listeners key).getD [] ++ [c.accepted] := by
    intro other list callback hne hlist hmem hnow
    rcases mem_append.mp hnow with hpre | hnow
    · cases hkey : c.listeners key with
      | none => simp [hkey] at hpre
      | some list' =>
        exact hne (h.apart other key list list' callback hlist hkey hmem
          (by simpa [hkey] using hpre))
    have hlt := ((h.waits other list hlist).2 callback hmem).1
    rw [mem_singleton.mp hnow] at hlt
    exact lt_irrefl _ hlt
  constructor
  · exact h.once
  · intro callback hcb
    exact Nat.lt_succ_of_lt (h.asked callback hcb)
  · intro other list hlist
    rcases hlisteners other list hlist with ⟨-, rfl⟩ | ⟨-, hlist⟩
    · refine ⟨nodup_append'.mpr ⟨hold.1, nodup_singleton _, ?_⟩, ?_⟩
      · intro callback hpre hnow
        have hlt := (hold.2 callback hpre).1
        exact hlt.ne (mem_singleton.mp hnow)
      intro callback hcb
      rcases mem_append.mp hcb with hpre | hnow
      · exact ⟨Nat.lt_succ_of_lt (hold.2 callback hpre).1, (hold.2 callback hpre).2⟩
      rw [mem_singleton.mp hnow]
      exact ⟨Nat.lt_succ_self _, fun hmem => lt_irrefl _ (h.asked _ hmem)⟩
    obtain ⟨hnodup, hwaits⟩ := h.waits other list hlist
    exact ⟨hnodup, fun callback hcb =>
      ⟨Nat.lt_succ_of_lt (hwaits callback hcb).1, (hwaits callback hcb).2⟩⟩
  · intro first second list list' callback hfirst hsecond hmem hmem'
    rcases hlisteners first list hfirst with ⟨rfl, rfl⟩ | ⟨hne, hleft⟩
    · rcases hlisteners second list' hsecond with ⟨rfl, -⟩ | ⟨hne', hright⟩
      · rfl
      exact absurd hmem (hother second list' callback hne' hright hmem')
    rcases hlisteners second list' hsecond with ⟨rfl, rfl⟩ | ⟨-, hright⟩
    · exact absurd hmem' (hother first list callback hne hleft hmem)
    exact h.apart first second list list' callback hleft hright hmem hmem'
  intro callback hcb
  change callback < c.accepted + 1 at hcb
  have hself : (c.listen key background).listeners key =
      some ((c.listeners key).getD [] ++ [c.accepted]) := update_self ..
  rcases Nat.lt_succ_iff_lt_or_eq.mp hcb with hpre | hnow
  · rcases h.kept callback hpre with hans | ⟨other, list, hlist, hmem⟩
    · exact .inl hans
    by_cases heq : other = key
    · subst heq
      exact .inr ⟨other, _, hself, mem_append_left _ (by simpa [hlist] using hmem)⟩
    refine .inr ⟨other, list, ?_, hmem⟩
    change Function.update c.listeners key _ other = some list
    rw [update_of_ne heq]
    exact hlist
  exact .inr ⟨key, _, hself, mem_append_right _ (mem_singleton.mpr hnow)⟩

def isQueued (c : Cache) (key : Text) : Prop := key ∈ c.order ∨ key ∈ c.backlog

structure Queues (c : Cache) : Prop where
  order : c.order.Nodup
  backlog : c.backlog.Nodup
  apart : ∀ key ∈ c.order, key ∉ c.backlog
  queued : ∀ key, key ∈ c.queued ↔ key ∈ c.order
  waiting : ∀ key, key ∈ c.waiting ↔ key ∈ c.backlog
  idle : ∀ key, c.isQueued key → key ∉ c.inflight ∧ c.rows.path key = []
  single : (c.downloads.map Download.key).Nodup
  inflight : ∀ key, key ∈ c.inflight ↔ key ∈ c.downloads.map Download.key
  background : ∀ key, key ∈ c.backgroundInflight ↔
    ∃ download ∈ c.downloads, download.key = key ∧ download.background = true

/-- Somebody will come back to each key that has callbacks, but for those in `extra`. -/
def Caused (extra : List Text) (c : Cache) : Prop :=
  ∀ key, (c.listeners key).isSome = true → key ∈ extra ∨
    key ∈ c.continuations.map Continuation.key ∨ c.isQueued key ∨ key ∈ c.inflight

/-- Between two steps nothing is extra. -/
structure Inv (limit : Nat) (extra : List Text) (c : Cache) : Prop where
  listening : c.Listening
  queues : c.Queues
  caused : c.Caused extra
  slots : c.inflight.card ≤ limit
  background : c.backgroundInflight.card ≤ backgroundSlots

section

variable (h : c.Inv limit (key :: extra))
include h

theorem Inv.deliver (hkey : key ∉ c.order) (path : Text) :
    (c.deliver key path).Inv limit extra := by
  refine ⟨h.listening.deliver key path, { h.queues with queued := ?_ }, ?_, h.slots, h.background⟩
  · intro other
    change other ∈ c.queued.erase key ↔ other ∈ c.order
    rw [Finset.mem_erase, h.queues.queued]
    constructor
    · exact fun hother => hother.2
    intro hother
    refine ⟨?_, hother⟩
    rintro rfl
    exact hkey hother
  intro other hother
  obtain ⟨list, hlist⟩ := Option.isSome_iff_exists.mp hother
  obtain ⟨hne, hlist⟩ := listeners_deliver hlist
  rcases h.caused other (by rw [hlist]; rfl) with hextra | hcause
  · exact .inl ((mem_cons.mp hextra).resolve_left hne)
  exact .inr hcause

theorem Inv.drop (hnone : c.listeners key = none) : c.Inv limit extra := by
  refine { h with caused := ?_ }
  intro other hother
  rcases h.caused other hother with hextra | hcause
  · rcases mem_cons.mp hextra with rfl | hextra
    · rw [hnone] at hother
      cases hother
    exact .inl hextra
  exact .inr hcause

theorem Inv.settle
    (hcause : key ∈ c.continuations.map Continuation.key ∨ c.isQueued key ∨ key ∈ c.inflight) :
    c.Inv limit extra := by
  refine { h with caused := ?_ }
  intro other hother
  rcases h.caused other hother with hextra | hother
  · rcases mem_cons.mp hextra with rfl | hextra
    · exact .inr hcause
    exact .inl hextra
  exact .inr hother

theorem Inv.start (hqueued : ¬c.isQueued key)
    (hfree : key ∉ c.inflight) (hslots : c.inflight.card < limit) (background : Bool)
    (hbackground : background = true → c.backgroundInflight.card < backgroundSlots) :
    (c.start key background).Inv limit extra := by
  unfold Cache.start
  split
  case isTrue hnone => exact h.drop (Option.isNone_iff_eq_none.mp hnone)
  case isFalse hsome =>
    simp only []
    split
    · exact h.deliver (fun horder => hqueued (.inl horder)) []
    have hdownloads : key ∉ c.downloads.map Download.key :=
      fun hmem => hfree ((h.queues.inflight key).mpr hmem)
    constructor
    · exact h.listening.of_eq rfl rfl rfl
    · refine { h.queues with idle := ?_, single := ?_, inflight := ?_, background := ?_ }
      · intro other hother
        obtain ⟨hinflight, hpath⟩ := h.queues.idle other hother
        refine ⟨?_, hpath⟩
        change other ∉ insert key c.inflight
        rw [Finset.mem_insert, not_or]
        exact ⟨fun heq => hqueued (heq ▸ hother), hinflight⟩
      · change ((c.downloads ++ [_]).map Download.key).Nodup
        rw [map_append, nodup_append']
        refine ⟨h.queues.single, nodup_singleton _, ?_⟩
        intro other hold hnew
        have heq : other = key := mem_singleton.mp hnew
        exact hdownloads (heq ▸ hold)
      · intro other
        change other ∈ insert key c.inflight ↔ other ∈ (c.downloads ++ [_]).map Download.key
        rw [Finset.mem_insert, h.queues.inflight, map_append, mem_append, or_comm]
        simp
      intro other
      have hold := h.queues.background other
      change other ∈ (if background then insert key c.backgroundInflight
        else c.backgroundInflight) ↔ ∃ download ∈ c.downloads ++ [_], _
      cases background
      · simp only [Bool.false_eq_true, if_false, hold, mem_append, mem_singleton]
        constructor
        · rintro ⟨download, hmem, hrest⟩
          exact ⟨download, .inl hmem, hrest⟩
        rintro ⟨download, hmem | rfl, hkey, hback⟩
        · exact ⟨download, hmem, hkey, hback⟩
        cases hback
      simp only [if_true, Finset.mem_insert, hold, mem_append, mem_singleton]
      constructor
      · rintro (rfl | ⟨download, hmem, hrest⟩)
        · exact ⟨_, .inr rfl, rfl, rfl⟩
        exact ⟨download, .inl hmem, hrest⟩
      rintro ⟨download, hmem | rfl, hkey, hback⟩
      · exact .inr ⟨download, hmem, hkey, hback⟩
      exact .inl hkey.symm
    · intro other hother
      change other ∈ extra ∨ other ∈ c.continuations.map Continuation.key ∨
        c.isQueued other ∨ other ∈ insert key c.inflight
      rw [Finset.mem_insert]
      rcases h.caused other hother with hextra | hcont | hqueue | hinflight
      · rcases mem_cons.mp hextra with rfl | hextra
        · exact .inr (.inr (.inr (.inl rfl)))
        exact .inl hextra
      · exact .inr (.inl hcont)
      · exact .inr (.inr (.inl hqueue))
      exact .inr (.inr (.inr (.inr hinflight)))
    · change (insert key c.inflight).card ≤ limit
      rw [Finset.card_insert_of_notMem hfree]
      exact hslots
    change (if background then insert key c.backgroundInflight
      else c.backgroundInflight).card ≤ backgroundSlots
    split
    · exact (Finset.card_insert_le _ _).trans (hbackground ‹_›)
    exact h.background

end

theorem Inv.takeOrder {rest : List Text} (h : c.Inv limit extra) (horder : c.order = key :: rest) :
    let taken : Cache := { c with order := rest, queued := c.queued.erase key }
    taken.Inv limit (key :: extra) ∧ ¬taken.isQueued key := by
  have hnodup := h.queues.order
  have hback := h.queues.apart
  rw [horder] at hnodup hback
  obtain ⟨hfresh, hrest⟩ := nodup_cons.mp hnodup
  have hnot : ¬({ c with order := rest, queued := c.queued.erase key } : Cache).isQueued key := by
    rintro (hmem | hmem)
    · exact hfresh hmem
    exact hback key mem_cons_self hmem
  refine ⟨⟨h.listening.of_eq rfl rfl rfl, ?_, ?_, h.slots, h.background⟩, hnot⟩
  · refine { h.queues with order := hrest, apart := ?_, queued := ?_, idle := ?_ }
    · exact fun other hother => hback other (mem_cons_of_mem _ hother)
    · intro other
      change other ∈ c.queued.erase key ↔ other ∈ rest
      rw [Finset.mem_erase, h.queues.queued, horder, mem_cons]
      constructor
      · exact fun hother => hother.2.resolve_left hother.1
      exact fun hother => ⟨fun heq => hfresh (heq ▸ hother), .inr hother⟩
    intro other hother
    apply h.queues.idle other
    rcases hother with hmem | hmem
    · exact .inl (horder ▸ mem_cons_of_mem _ hmem)
    exact .inr hmem
  intro other hother
  rcases h.caused other hother with hextra | hcont | (hmem | hmem) | hinflight
  · exact .inl (mem_cons_of_mem _ hextra)
  · exact .inr (.inl hcont)
  · rcases mem_cons.mp (horder ▸ hmem) with rfl | hmem
    · exact .inl mem_cons_self
    exact .inr (.inr (.inl (.inl hmem)))
  · exact .inr (.inr (.inl (.inr hmem)))
  exact .inr (.inr (.inr hinflight))

theorem Inv.takeBacklog {rest : List Text} (h : c.Inv limit extra)
    (hbacklog : c.backlog = key :: rest) :
    let taken : Cache := { c with backlog := rest, waiting := c.waiting.erase key }
    taken.Inv limit (key :: extra) ∧ ¬taken.isQueued key := by
  have hnodup := h.queues.backlog
  rw [hbacklog] at hnodup
  obtain ⟨hfresh, hrest⟩ := nodup_cons.mp hnodup
  have hsub : ∀ other ∈ rest, other ∈ c.backlog :=
    fun other hother => hbacklog ▸ mem_cons_of_mem _ hother
  have hnot : ¬({ c with backlog := rest, waiting := c.waiting.erase key } : Cache).isQueued
      key := by
    rintro (hmem | hmem)
    · exact h.queues.apart key hmem (hbacklog ▸ mem_cons_self)
    exact hfresh hmem
  refine ⟨⟨h.listening.of_eq rfl rfl rfl, ?_, ?_, h.slots, h.background⟩, hnot⟩
  · refine { h.queues with backlog := hrest, apart := ?_, waiting := ?_, idle := ?_ }
    · exact fun other hother hmem => h.queues.apart other hother (hsub other hmem)
    · intro other
      change other ∈ c.waiting.erase key ↔ other ∈ rest
      rw [Finset.mem_erase, h.queues.waiting, hbacklog, mem_cons]
      constructor
      · exact fun hother => hother.2.resolve_left hother.1
      exact fun hother => ⟨fun heq => hfresh (heq ▸ hother), .inr hother⟩
    intro other hother
    exact h.queues.idle other (hother.imp_right (hsub other))
  intro other hother
  rcases h.caused other hother with hextra | hcont | (hmem | hmem) | hinflight
  · exact .inl (mem_cons_of_mem _ hextra)
  · exact .inr (.inl hcont)
  · exact .inr (.inr (.inl (.inl hmem)))
  · rcases mem_cons.mp (hbacklog ▸ hmem) with rfl | hmem
    · exact .inl mem_cons_self
    exact .inr (.inr (.inl (.inr hmem)))
  exact .inr (.inr (.inr hinflight))

/-- The number of keys in the queues. -/
def pending (c : Cache) : Nat := c.order.length + c.backlog.length

@[simp] theorem pending_start (background : Bool) :
    (c.start key background).pending = c.pending := by
  unfold Cache.start
  split
  · rfl
  simp only []
  split <;> rfl

theorem Inv.pumpStep (h : c.Inv limit extra) (hstep : c.pumpStep limit = some d) :
    d.Inv limit extra ∧ d.pending < c.pending := by
  unfold Cache.pumpStep at hstep
  split at hstep
  case isTrue => cases hstep
  case isFalse hslots =>
    rw [not_le] at hslots
    split at hstep
    case h_1 key rest horder =>
      cases hstep
      obtain ⟨htaken, hnot⟩ := h.takeOrder horder
      have hfree := (h.queues.idle key (.inl (horder ▸ mem_cons_self))).1
      refine ⟨htaken.start hnot hfree hslots false (by simp), ?_⟩
      rw [pending_start]
      simp [pending, horder]
    case h_2 horder =>
      split at hstep
      case isTrue => cases hstep
      case isFalse hbackground =>
        rw [not_le] at hbackground
        split at hstep
        case h_1 => cases hstep
        case h_2 key rest hbacklog =>
          cases hstep
          obtain ⟨htaken, hnot⟩ := h.takeBacklog hbacklog
          have hfree := (h.queues.idle key (.inr (hbacklog ▸ mem_cons_self))).1
          refine ⟨htaken.start hnot hfree hslots true fun _ => hbackground, ?_⟩
          rw [pending_start]
          simp [pending, hbacklog]

theorem queues_empty_of_ended (hlimit : 0 < limit) (hbackground : c.backgroundInflight ⊆ c.inflight)
    (hended : c.pumpStep limit = none) (hidle : c.inflight = ∅) : c.order = [] ∧ c.backlog = [] := by
  have hnone : c.backgroundInflight = ∅ := Finset.subset_empty.mp (hidle ▸ hbackground)
  unfold Cache.pumpStep at hended
  rw [hidle, hnone, Finset.card_empty, if_neg (not_le.mpr hlimit)] at hended
  split at hended
  · cases hended
  rename_i horder
  rw [if_neg (by decide)] at hended
  split at hended
  · rename_i hbacklog
    exact ⟨horder, hbacklog⟩
  cases hended

theorem Inv.pumpLoop {fuel : Nat} (h : c.Inv limit extra) (hfuel : c.pending < fuel) :
    (c.pumpLoop limit fuel).Inv limit extra ∧ (c.pumpLoop limit fuel).pumpStep limit = none := by
  induction fuel generalizing c with
  | zero => exact absurd hfuel (Nat.not_lt_zero _)
  | succ fuel ih =>
    rw [Cache.pumpLoop]
    cases hstep : c.pumpStep limit with
    | none => exact ⟨h, hstep⟩
    | some next =>
      obtain ⟨hnext, hless⟩ := h.pumpStep hstep
      exact ih hnext (by omega)

/-- Between two steps the queues wait for a download. -/
def Settled (c : Cache) : Prop := c.inflight = ∅ → c.order = [] ∧ c.backlog = []

theorem Queues.background_subset (h : c.Queues) : c.backgroundInflight ⊆ c.inflight := by
  intro key hkey
  obtain ⟨download, hmem, hdownload, -⟩ := (h.background key).mp hkey
  exact (h.inflight key).mpr (mem_map.mpr ⟨download, hmem, hdownload⟩)

theorem Inv.pump (h : c.Inv limit extra) (hlimit : 0 < limit) :
    (c.pump limit).Inv limit extra ∧ (c.pump limit).Settled := by
  obtain ⟨hinv, hended⟩ := h.pumpLoop (Nat.lt_succ_self _)
  exact ⟨hinv, queues_empty_of_ended hlimit hinv.queues.background_subset hended⟩

/-- What is still to be done, so that each step of the cache by itself does a part. -/
def weight (c : Cache) : Nat := 3 * c.continuations.length + 2 * c.pending + c.downloads.length

structure Served (c d : Cache) : Prop where
  rows : d.rows = c.rows
  ready : d.ready = c.ready
  continuations : d.continuations = c.continuations
  removals : d.removals = c.removals
  accepted : d.accepted = c.accepted
  pending : d.pending ≤ c.pending
  weight : d.weight ≤ c.weight

theorem Served.refl (c : Cache) : Served c c := ⟨rfl, rfl, rfl, rfl, rfl, le_rfl, le_rfl⟩

theorem Served.trans {e : Cache} (h : Served c d) (h' : Served d e) : Served c e :=
  ⟨h'.rows.trans h.rows, h'.ready.trans h.ready, h'.continuations.trans h.continuations,
    h'.removals.trans h.removals, h'.accepted.trans h.accepted, h'.pending.trans h.pending,
    h'.weight.trans h.weight⟩

theorem served_deliver (path : Text) : Served c (c.deliver key path) :=
  ⟨rfl, rfl, rfl, rfl, rfl, le_rfl, le_rfl⟩

theorem served_start {taken : Cache} (hrows : taken.rows = c.rows) (hready : taken.ready = c.ready)
    (hconts : taken.continuations = c.continuations)
    (hremov : taken.removals = c.removals) (hacc : taken.accepted = c.accepted)
    (hdownloads : taken.downloads = c.downloads) (hpend : taken.pending + 1 = c.pending)
    (background : Bool) : Served c (taken.start key background) := by
  have htaken : Served c taken := by
    refine ⟨hrows, hready, hconts, hremov, hacc, by omega, ?_⟩
    unfold Cache.weight
    rw [hconts, hdownloads]
    omega
  unfold Cache.start
  split
  · exact htaken
  simp only []
  split
  · exact htaken.trans (served_deliver [])
  refine ⟨hrows, hready, hconts, hremov, hacc, ?_, ?_⟩
  · change taken.pending ≤ c.pending
    omega
  change 3 * taken.continuations.length + 2 * taken.pending +
    (taken.downloads ++ [_]).length ≤ c.weight
  rw [length_append, length_singleton, hconts, hdownloads, Cache.weight]
  omega

theorem served_pumpStep (hstep : c.pumpStep limit = some d) : Served c d := by
  unfold Cache.pumpStep at hstep
  split at hstep
  · cases hstep
  split at hstep
  case h_1 key rest horder =>
    cases hstep
    apply served_start (c := c)
    case hpend =>
      simp only [Cache.pending, horder, length_cons]
      omega
    all_goals rfl
  case h_2 horder =>
    split at hstep
    · cases hstep
    split at hstep
    case h_1 => cases hstep
    case h_2 key rest hbacklog =>
      cases hstep
      apply served_start (c := c)
      case hpend =>
        simp only [Cache.pending, hbacklog, length_cons]
        omega
      all_goals rfl

theorem served_pumpLoop (fuel : Nat) (c : Cache) : Served c (c.pumpLoop limit fuel) := by
  induction fuel generalizing c with
  | zero => exact Served.refl c
  | succ fuel ih =>
    rw [Cache.pumpLoop]
    cases hstep : c.pumpStep limit with
    | none => exact Served.refl c
    | some next => exact (served_pumpStep hstep).trans (ih next)

theorem served_pump (limit : Nat) (c : Cache) : Served c (c.pump limit) := served_pumpLoop _ c

theorem Queues.order_erase (h : c.Queues) (key : Text) :
    (if key ∈ c.queued then c.order.erase key else c.order) = c.order.erase key := by
  split
  · rfl
  rename_i hkey
  rw [h.queued] at hkey
  exact (erase_of_not_mem hkey).symm

theorem Queues.backlog_erase (h : c.Queues) (key : Text) :
    (if key ∈ c.waiting then c.backlog.erase key else c.backlog) = c.backlog.erase key := by
  split
  · rfl
  rename_i hkey
  rw [h.waiting] at hkey
  exact (erase_of_not_mem hkey).symm

/-- The cache with a key put first in the foreground. -/
def pushOrder (c : Cache) (key : Text) : Cache :=
  { c with
    waiting := c.waiting.erase key
    backlog := c.backlog.erase key
    queued := insert key c.queued
    order := key :: c.order.erase key }

def pushBacklog (c : Cache) (key : Text) : Cache :=
  { c with
    waiting := insert key c.waiting
    backlog := key :: c.backlog }

theorem Inv.pushOrder (h : c.Inv limit (key :: extra)) (hfree : key ∉ c.inflight)
    (hpath : c.rows.path key = []) : (c.pushOrder key).Inv limit extra := by
  have hqueue : ∀ other, (c.pushOrder key).isQueued other ↔ other = key ∨ c.isQueued other := by
    intro other
    change other ∈ key :: c.order.erase key ∨ other ∈ c.backlog.erase key ↔ _
    rw [mem_cons, h.queues.order.mem_erase_iff, h.queues.backlog.mem_erase_iff, isQueued]
    tauto
  refine ⟨h.listening.of_eq rfl rfl rfl, ?_, ?_, h.slots, h.background⟩
  · refine { h.queues with order := ?_, backlog := ?_, apart := ?_, queued := ?_, waiting := ?_,
                           idle := ?_ }
    · exact nodup_cons.mpr ⟨fun hmem => (h.queues.order.mem_erase_iff.mp hmem).1 rfl,
        h.queues.order.erase key⟩
    · exact h.queues.backlog.erase key
    · intro other hother hmem
      obtain ⟨hne, hback⟩ := h.queues.backlog.mem_erase_iff.mp hmem
      have horder := (mem_cons.mp hother).resolve_left hne
      exact h.queues.apart other (mem_of_mem_erase horder) hback
    · intro other
      change other ∈ insert key c.queued ↔ other ∈ key :: c.order.erase key
      rw [Finset.mem_insert, h.queues.queued, mem_cons, h.queues.order.mem_erase_iff]
      tauto
    · intro other
      change other ∈ c.waiting.erase key ↔ other ∈ c.backlog.erase key
      rw [Finset.mem_erase, h.queues.waiting, h.queues.backlog.mem_erase_iff]
    intro other hother
    rcases (hqueue other).mp hother with rfl | hother
    · exact ⟨hfree, hpath⟩
    exact h.queues.idle other hother
  intro other hother
  rcases h.caused other hother with hextra | hcont | hqueued | hinflight
  · rcases mem_cons.mp hextra with rfl | hextra
    · exact .inr (.inr (.inl ((hqueue other).mpr (.inl rfl))))
    exact .inl hextra
  · exact .inr (.inl hcont)
  · exact .inr (.inr (.inl ((hqueue other).mpr (.inr hqueued))))
  exact .inr (.inr (.inr hinflight))

theorem Inv.pushBacklog (h : c.Inv limit (key :: extra)) (hfree : key ∉ c.inflight)
    (hpath : c.rows.path key = []) (hqueued : ¬c.isQueued key) :
    (c.pushBacklog key).Inv limit extra := by
  refine ⟨h.listening.of_eq rfl rfl rfl, ?_, ?_, h.slots, h.background⟩
  · refine { h.queues with backlog := ?_, apart := ?_, waiting := ?_, idle := ?_ }
    · exact nodup_cons.mpr ⟨fun hmem => hqueued (.inr hmem), h.queues.backlog⟩
    · intro other hother hmem
      rcases mem_cons.mp hmem with rfl | hmem
      · exact hqueued (.inl hother)
      exact h.queues.apart other hother hmem
    · intro other
      change other ∈ insert key c.waiting ↔ other ∈ key :: c.backlog
      rw [Finset.mem_insert, h.queues.waiting, mem_cons]
    rintro other (hother | hother)
    · exact h.queues.idle other (.inl hother)
    rcases mem_cons.mp hother with rfl | hother
    · exact ⟨hfree, hpath⟩
    exact h.queues.idle other (.inr hother)
  intro other hother
  rcases h.caused other hother with hextra | hcont | (hmem | hmem) | hinflight
  · rcases mem_cons.mp hextra with rfl | hextra
    · exact .inr (.inr (.inl (.inr mem_cons_self)))
    exact .inl hextra
  · exact .inr (.inl hcont)
  · exact .inr (.inr (.inl (.inl hmem)))
  · exact .inr (.inr (.inl (.inr (mem_cons_of_mem _ hmem))))
  exact .inr (.inr (.inr hinflight))

theorem Inv.enqueue (h : c.Inv limit (key :: extra)) (hlimit : 0 < limit)
    (hset : c.Settled) (hpath : c.rows.path key = []) (background : Bool) :
    (c.enqueue limit key background).Inv limit extra ∧
      (c.enqueue limit key background).Settled := by
  unfold Cache.enqueue
  split
  case isTrue hfree =>
    have hinflight := hfree.resolve_right (not_not.mpr hpath)
    exact ⟨h.settle (.inr (.inr hinflight)), hset⟩
  case isFalse hfree =>
    rw [not_or] at hfree
    split
    · split
      case isTrue hqueued =>
        rw [h.queues.queued, h.queues.waiting] at hqueued
        exact ⟨h.settle (.inr (.inl hqueued)), hset⟩
      case isFalse hqueued =>
        rw [h.queues.queued, h.queues.waiting] at hqueued
        exact (h.pushBacklog hfree.1 hpath hqueued).pump hlimit
    simp only [h.queues.order_erase, h.queues.backlog_erase]
    exact (h.pushOrder hfree.1 hpath).pump hlimit

theorem enqueue_frame (h : c.Queues) (limit : Nat) (key : Text) (background : Bool) :
    (c.enqueue limit key background).ready = c.ready ∧
      (c.enqueue limit key background).continuations = c.continuations ∧
      (c.enqueue limit key background).rows = c.rows ∧
      (c.enqueue limit key background).removals = c.removals ∧
      (c.enqueue limit key background).accepted = c.accepted ∧
      (c.enqueue limit key background).weight ≤ c.weight + 2 := by
  unfold Cache.enqueue
  split
  · exact ⟨rfl, rfl, rfl, rfl, rfl, by omega⟩
  split
  · split
    · exact ⟨rfl, rfl, rfl, rfl, rfl, by omega⟩
    have hserved := served_pump limit (c.pushBacklog key)
    refine ⟨hserved.ready, hserved.continuations, hserved.rows, hserved.removals,
      hserved.accepted, hserved.weight.trans ?_⟩
    simp only [Cache.weight, pending, Cache.pushBacklog, length_cons]
    omega
  simp only [h.order_erase, h.backlog_erase]
  have hserved := served_pump limit (c.pushOrder key)
  refine ⟨hserved.ready, hserved.continuations, hserved.rows, hserved.removals,
    hserved.accepted, hserved.weight.trans ?_⟩
  have horder : (c.order.erase key).length ≤ c.order.length := length_erase_le
  have hbacklog : (c.backlog.erase key).length ≤ c.backlog.length := length_erase_le
  simp only [Cache.weight, pending, Cache.pushOrder, length_cons]
  omega

end Cache

end ImApp.MediaCache
