import ImApp.ActiveConnections.Manager
import Mathlib.Data.List.Nodup

/-!
What the operations do to the table. All but a reservation let entries go and leave
the others with their creation; an entry that went leaves its identifier free, and
an object that is not in the table is at most marked as closing.
-/

namespace ImApp.ActiveConnections

open List
open JsonText (Text)

namespace Manager

variable {m t u : Manager} {id : Text} {n : Nat}

theorem get_eq_none : m.get id = none ↔ ∀ n ∈ m.entries, m.idOf n ≠ id := by
  simp [get, find?_eq_none]

theorem get_some (h : m.get id = some n) : n ∈ m.entries ∧ m.idOf n = id := by
  constructor
  · exact mem_of_find?_eq_some h
  simpa using find?_some h

/-- Each identifier is that of one entry. -/
def UniqueIds (m : Manager) : Prop := (m.entries.map m.idOf).Nodup

theorem UniqueIds.eq {k : Nat} (h : m.UniqueIds) (hn : n ∈ m.entries) (hk : k ∈ m.entries)
    (heq : m.idOf n = m.idOf k) : n = k := inj_on_of_nodup_map h hn hk heq

theorem UniqueIds.get (h : m.UniqueIds) (hn : n ∈ m.entries) : m.get (m.idOf n) = some n := by
  cases hget : m.get (m.idOf n) with
  | none => exact absurd rfl (get_eq_none.mp hget n hn)
  | some k =>
    obtain ⟨hk, hid⟩ := get_some hget
    rw [h.eq hk hn hid]

/-- What an operation that reserves nothing may do. -/
structure Shrinks (m t : Manager) : Prop where
  entries : t.entries.Sublist m.entries
  creation : ∀ n, (t.objects n).creation = (m.objects n).creation
  reserved : t.reserved = m.reserved
  limits : t.limits = m.limits
  grants : t.grants = m.grants
  vacated : ∀ n ∈ m.entries, n ∉ t.entries → t.get (m.idOf n) = none
  logged : ∀ n ∈ m.entries, n ∉ t.entries → ∃ removal ∈ t.removals, removal.removed = n
  log : ∀ removal ∈ m.removals, removal ∈ t.removals
  lease : ∀ n ∉ m.entries, (t.objects n).leaseExpiresAt = (m.objects n).leaseExpiresAt
  activity : ∀ n ∉ m.entries, (t.objects n).lastActivityAtMs = (m.objects n).lastActivityAtMs
  reason : ∀ n ∉ m.entries, (t.objects n).closeRequestedReason = [] →
    (m.objects n).closeRequestedReason = []

theorem Shrinks.refl (m : Manager) : m.Shrinks m where
  entries := List.Sublist.refl _
  creation _ := rfl
  reserved := rfl
  limits := rfl
  grants := rfl
  vacated _ hn hnot := absurd hn hnot
  logged _ hn hnot := absurd hn hnot
  log _ h := h
  lease _ _ := rfl
  activity _ _ := rfl
  reason _ _ h := h

theorem Shrinks.idOf (h : m.Shrinks t) (n : Nat) : t.idOf n = m.idOf n :=
  congrArg Creation.id (h.creation n)

theorem Shrinks.ownerOf (h : m.Shrinks t) (n : Nat) : t.ownerOf n = m.ownerOf n :=
  congrArg Creation.ownerId (h.creation n)

theorem Shrinks.get_none (h : m.Shrinks t) (hid : m.get id = none) : t.get id = none := by
  rw [get_eq_none] at hid ⊢
  intro n hn
  rw [h.idOf]
  exact hid n (h.entries.mem hn)

theorem Shrinks.trans (h : m.Shrinks t) (h' : t.Shrinks u) : m.Shrinks u where
  entries := h'.entries.trans h.entries
  creation n := (h'.creation n).trans (h.creation n)
  reserved := h'.reserved.trans h.reserved
  limits := h'.limits.trans h.limits
  grants := h'.grants.trans h.grants
  vacated n hn hnot := by
    by_cases hmiddle : n ∈ t.entries
    · have hvacated := h'.vacated n hmiddle hnot
      rw [h.idOf] at hvacated
      exact hvacated
    exact h'.get_none (h.vacated n hn hmiddle)
  logged n hn hnot := by
    by_cases hmiddle : n ∈ t.entries
    · exact h'.logged n hmiddle hnot
    obtain ⟨removal, hmem, hremoved⟩ := h.logged n hn hmiddle
    exact ⟨removal, h'.log removal hmem, hremoved⟩
  log removal hmem := h'.log removal (h.log removal hmem)
  lease n hn := (h'.lease n fun hmiddle => hn (h.entries.mem hmiddle)).trans (h.lease n hn)
  activity n hn := (h'.activity n fun hmiddle => hn (h.entries.mem hmiddle)).trans (h.activity n hn)
  reason n hn hreason :=
    h.reason n hn (h'.reason n (fun hmiddle => hn (h.entries.mem hmiddle)) hreason)

theorem objects_setObject (entry : Entry) (k : Nat) :
    (m.setObject n entry).objects k = if k = n then entry else m.objects k :=
  Function.update_apply ..

/-- An object gets other data of its own; outside of the table it is only marked as
closing. -/
theorem shrinks_setObject {entry : Entry} (hcreation : entry.creation = (m.objects n).creation)
    (hstale : n ∉ m.entries → entry.leaseExpiresAt = (m.objects n).leaseExpiresAt ∧
      entry.lastActivityAtMs = (m.objects n).lastActivityAtMs ∧
        (entry.closeRequestedReason = [] → (m.objects n).closeRequestedReason = [])) :
    m.Shrinks (m.setObject n entry) := by
  refine { Shrinks.refl m with
    creation := ?_, lease := ?_, activity := ?_, reason := ?_, vacated := ?_, logged := ?_ }
  · intro k
    rw [objects_setObject]
    split
    case isTrue hk =>
      rw [hk]
      exact hcreation
    case isFalse => rfl
  · exact fun k hk hnot => absurd hk hnot
  · exact fun k hk hnot => absurd hk hnot
  · intro k hk
    rw [objects_setObject]
    split
    case isTrue heq =>
      rw [heq] at hk ⊢
      exact (hstale hk).1
    case isFalse => rfl
  · intro k hk
    rw [objects_setObject]
    split
    case isTrue heq =>
      rw [heq] at hk ⊢
      exact (hstale hk).2.1
    case isFalse => rfl
  intro k hk hempty
  rw [objects_setObject] at hempty
  split at hempty
  case isTrue heq =>
    rw [heq] at hk ⊢
    exact (hstale hk).2.2 hempty
  case isFalse => exact hempty

theorem shrinks_setEntry {entry : Entry} (hn : n ∈ m.entries)
    (hcreation : entry.creation = (m.objects n).creation) : m.Shrinks (m.setObject n entry) :=
  shrinks_setObject hcreation fun hnot => absurd hn hnot

theorem shrinks_close (reason : Text) (hreason : (m.objects n).closeRequestedReason = []) :
    m.Shrinks (m.setObject n { m.objects n with
      closeRequestedReason := reason, status := .closing }) :=
  shrinks_setObject rfl fun _ => ⟨rfl, rfl, fun _ => hreason⟩

theorem shrinks_delete (asked : Option Nat) (id : Text) : m.Shrinks (m.delete asked id) := by
  have hgone : ∀ n ∈ m.entries, n ∉ (m.delete asked id).entries → m.idOf n = id := by
    intro n hn hnot
    by_contra hid
    exact hnot (mem_filter.mpr ⟨hn, decide_eq_true hid⟩)
  refine { Shrinks.refl m with entries := filter_sublist, vacated := ?_, logged := ?_, log := ?_ }
  · intro n hn hnot
    rw [get_eq_none]
    intro k hk
    rw [hgone n hn hnot]
    exact of_decide_eq_true (mem_filter.mp hk).2
  · intro n hn hnot
    refine ⟨⟨asked, n⟩, mem_append_right _ (mem_map.mpr ⟨n, ?_, rfl⟩), rfl⟩
    exact mem_filter.mpr ⟨hn, decide_eq_true (hgone n hn hnot)⟩
  exact fun removal hmem => mem_append_left _ hmem

theorem shrinks_touch (id : Text) (activityAt now : Int) : m.Shrinks (m.touch id activityAt now) := by
  unfold touch
  cases hget : m.get id with
  | none => exact Shrinks.refl m
  | some n =>
    simp only []
    split
    · exact Shrinks.refl m
    exact shrinks_setEntry (get_some hget).1 rfl

theorem shrinks_activate (id : Text) : m.Shrinks (m.activate id) := by
  unfold activate
  cases hget : m.get id with
  | none => exact Shrinks.refl m
  | some n => exact shrinks_setEntry (get_some hget).1 rfl

theorem shrinks_foldl {α : Type} {turn : Manager → α → Manager}
    (hturn : ∀ (m : Manager) (a : α), m.Shrinks (turn m a)) (items : List α) (m : Manager) :
    m.Shrinks (items.foldl turn m) := by
  induction items generalizing m with
  | nil => exact Shrinks.refl m
  | cons item rest ih => exact (hturn m item).trans (ih (turn m item))

theorem shrinks_touchResource (ownerId : Text) (type : ConnectionType) (resourceId : Text)
    (executionScope : Option (Option Text)) (now : Int) :
    m.Shrinks (m.touchResource ownerId type resourceId executionScope now) := by
  apply shrinks_foldl
  intro m n
  simp only []
  split
  · exact Shrinks.refl m
  split
  · exact Shrinks.refl m
  exact shrinks_touch _ _ _

theorem shrinks_releaseExternal (id ownerId executionScope : Text) :
    m.Shrinks (m.releaseExternal id ownerId executionScope).1 := by
  unfold releaseExternal
  cases m.get id with
  | none => exact Shrinks.refl m
  | some n =>
    simp only []
    split
    · exact Shrinks.refl m
    exact shrinks_delete _ _

theorem shrinks_syncActivity (ownerId executionScope : Text) (heartbeats : List Heartbeat)
    (now : Int) : m.Shrinks (m.syncActivity ownerId executionScope heartbeats now) := by
  apply shrinks_foldl
  intro m heartbeat
  split
  · split
    · exact shrinks_touch _ _ _
    exact Shrinks.refl m
  exact Shrinks.refl m

theorem shrinks_stop : m.Shrinks m.stop := by
  refine { Shrinks.refl m with
    entries := nil_sublist _, vacated := fun _ _ _ => rfl, logged := ?_, log := ?_ }
  · intro n hn _
    exact ⟨⟨none, n⟩, mem_append_right _ (mem_map.mpr ⟨n, hn, rfl⟩), rfl⟩
  exact fun removal hmem => mem_append_left _ hmem

theorem shrinks_requestClose (n : Nat) (reason : Text) : m.Shrinks (m.requestClose n reason).1 := by
  unfold requestClose
  split
  · exact Shrinks.refl m
  rename_i hopen
  simp only [Bool.or_eq_true, decide_eq_true_eq, not_or, not_not] at hopen
  have hclosing := shrinks_close (m := m) reason hopen.2
  simp only []
  split
  · exact hclosing
  split
  · exact hclosing
  exact hclosing.trans (shrinks_delete _ _)

theorem shrinks_requestCloses (reason : Text) (ns : List Nat) (m : Manager) :
    m.Shrinks (requestCloses reason ns m).1 := by
  induction ns generalizing m with
  | nil => exact Shrinks.refl m
  | cons n rest ih => exact (shrinks_requestClose n reason).trans (ih _)

theorem UniqueIds.shrinks (h : m.UniqueIds) (ht : m.Shrinks t) : t.UniqueIds := by
  unfold UniqueIds
  have hsame : t.entries.map t.idOf = t.entries.map m.idOf :=
    map_congr_left fun n _ => ht.idOf n
  rw [hsame]
  exact List.Nodup.sublist (ht.entries.map _) h

/-- The reservation is in the table, or nothing is under its identifier. -/
def Settled (m : Manager) (n : Nat) : Prop := n ∈ m.entries ∨ m.get (m.idOf n) = none

theorem Settled.shrinks (h : m.Settled n) (ht : m.Shrinks t) : t.Settled n := by
  unfold Settled
  rw [ht.idOf]
  rcases h with hn | hnone
  · by_cases hkept : n ∈ t.entries
    · exact .inl hkept
    exact .inr (ht.vacated n hn hkept)
  exact .inr (ht.get_none hnone)

/-- A removal that was for a reservation removed that reservation. -/
def Faithful (m : Manager) : Prop :=
  ∀ removal ∈ m.removals, ∀ n, removal.asked = some n → removal.removed = n

theorem faithful_release (h : m.Faithful) (id : Text) : (m.delete none id).Faithful := by
  intro removal hmem n hasked
  rcases mem_append.mp hmem with hold | hnew
  · exact h removal hold n hasked
  obtain ⟨k, -, rfl⟩ := mem_map.mp hnew
  cases hasked

theorem faithful_delete (h : m.Faithful) (hunique : m.UniqueIds) (hset : m.Settled n) :
    (m.delete (some n) (m.idOf n)).Faithful := by
  intro removal hmem asked hasked
  rcases mem_append.mp hmem with hold | hnew
  · exact h removal hold asked hasked
  obtain ⟨k, hk, rfl⟩ := mem_map.mp hnew
  cases hasked
  obtain ⟨hk, hid⟩ := mem_filter.mp hk
  rw [decide_eq_true_eq] at hid
  rcases hset with hn | hnone
  · exact hunique.eq hk hn hid
  exact absurd hid (get_eq_none.mp hnone k hk)

theorem faithful_requestClose (h : m.Faithful) (hunique : m.UniqueIds) (hset : m.Settled n)
    (reason : Text) : (m.requestClose n reason).1.Faithful ∧
      ((m.requestClose n reason).2 = true → n ∈ m.entries) := by
  unfold requestClose
  split
  · exact ⟨h, fun hwaits => by cases hwaits⟩
  rename_i hopen
  simp only [Bool.or_eq_true, decide_eq_true_eq, not_or, not_not] at hopen
  have hn : n ∈ m.entries := by
    apply hset.resolve_right
    intro hnone
    rw [hnone] at hopen
    exact hopen.1 rfl
  have hclosing := shrinks_close (m := m) reason hopen.2
  simp only []
  split
  · exact ⟨h, fun _ => hn⟩
  split
  · exact ⟨h, fun _ => hn⟩
  refine ⟨?_, fun _ => hn⟩
  have hkept := faithful_delete (m := m.setObject n { m.objects n with
    closeRequestedReason := reason, status := .closing }) (n := n) h (hunique.shrinks hclosing)
    (.inl hn)
  rw [hclosing.idOf] at hkept
  exact hkept

variable {ns : List Nat}

/-- Closes that begin together remove what they were asked for, and wait for entries
that are in the table or have gone since. -/
theorem faithful_requestCloses (reason : Text) (h : m.Faithful)
    (hunique : m.UniqueIds) (hset : ∀ n ∈ ns, m.Settled n) :
    (requestCloses reason ns m).1.Faithful ∧
      ∀ n ∈ (requestCloses reason ns m).2, n ∈ ns ∧ (requestCloses reason ns m).1.Settled n := by
  induction ns generalizing m with
  | nil => exact ⟨h, fun _ hn => absurd hn not_mem_nil⟩
  | cons n rest ih =>
    have hshrinks := shrinks_requestClose (m := m) n reason
    obtain ⟨hfaithful, hwaits⟩ :=
      faithful_requestClose h hunique (hset n mem_cons_self) reason
    have hrest : ∀ k ∈ rest, (m.requestClose n reason).1.Settled k :=
      fun k hk => (hset k (mem_cons_of_mem _ hk)).shrinks hshrinks
    obtain ⟨hlast, hpend⟩ := ih hfaithful (hunique.shrinks hshrinks) hrest
    refine ⟨hlast, fun k hk => ?_⟩
    have hothers : k ∈ (requestCloses reason rest (m.requestClose n reason).1).2 → k ∈ n :: rest ∧
        (requestCloses reason (n :: rest) m).1.Settled k := by
      intro hk
      obtain ⟨hmem, hkept⟩ := hpend k hk
      exact ⟨mem_cons_of_mem _ hmem, hkept⟩
    simp only [requestCloses] at hk
    split at hk
    · rename_i hwait
      rcases mem_cons.mp hk with rfl | hk
      · refine ⟨mem_cons_self, ?_⟩
        have hset : m.Settled k := .inl (hwaits hwait)
        exact (hset.shrinks hshrinks).shrinks (shrinks_requestCloses _ _ _)
      exact hothers hk
    exact hothers hk

theorem shrinks_foldl_syncLease (ownerId executionScope : Text) (activeIds : List Text) (now : Int) (hnodup : ns.Nodup) (hunique : m.UniqueIds) (hns : ∀ n ∈ ns, n ∈ m.entries) :
    m.Shrinks (ns.foldl (fun m n => m.syncLease ownerId executionScope activeIds now n) m) ∧
      (m.Faithful →
        (ns.foldl (fun m n => m.syncLease ownerId executionScope activeIds now n) m).Faithful) := by
  induction ns generalizing m with
  | nil => exact ⟨Shrinks.refl m, id⟩
  | cons n rest ih =>
    rw [foldl_cons]
    obtain ⟨hfresh, hrest⟩ := nodup_cons.mp hnodup
    have hn : n ∈ m.entries := hns n mem_cons_self
    have hothers : ∀ k ∈ rest, k ∈ m.entries := fun k hk => hns k (mem_cons_of_mem _ hk)
    have hturn : m.Shrinks (m.syncLease ownerId executionScope activeIds now n) ∧
        (m.Faithful → (m.syncLease ownerId executionScope activeIds now n).Faithful) ∧
          ∀ k ∈ rest, k ∈ (m.syncLease ownerId executionScope activeIds now n).entries := by
      unfold syncLease
      split
      · exact ⟨Shrinks.refl m, id, hothers⟩
      split
      · split
        · refine ⟨shrinks_delete _ _, fun h => faithful_delete h hunique (.inl hn), ?_⟩
          intro k hk
          refine mem_filter.mpr ⟨hothers k hk, decide_eq_true fun hid => ?_⟩
          exact hfresh (hunique.eq (hothers k hk) hn hid ▸ hk)
        exact ⟨Shrinks.refl m, id, hothers⟩
      exact ⟨shrinks_setEntry hn rfl, id, hothers⟩
    obtain ⟨hshrinks, hfaithful, hkept⟩ := hturn
    obtain ⟨hlast, hend⟩ := ih hrest (hunique.shrinks hshrinks) hkept
    exact ⟨hshrinks.trans hlast, fun h => hend (hfaithful h)⟩

theorem UniqueIds.nodup (h : m.UniqueIds) : m.entries.Nodup := List.Nodup.of_map _ h

theorem Faithful.of_removals (h : m.Faithful) (hsame : t.removals = m.removals) : t.Faithful := by
  unfold Faithful
  rw [hsame]
  exact h

theorem removals_touch (id : Text) (activityAt now : Int) :
    (m.touch id activityAt now).removals = m.removals := by
  unfold touch
  split
  · split <;> rfl
  rfl

theorem removals_foldl {α : Type} {turn : Manager → α → Manager}
    (hturn : ∀ (m : Manager) (a : α), (turn m a).removals = m.removals) (items : List α)
    (m : Manager) : (items.foldl turn m).removals = m.removals := by
  induction items generalizing m with
  | nil => rfl
  | cons item rest ih => exact (ih (turn m item)).trans (hturn m item)

variable {now idleCutoff : Int}

theorem shrinks_syncExternal {ownerId executionScope : Text} {heartbeats : List Heartbeat} (hunique : m.UniqueIds) :
    m.Shrinks (m.syncExternal ownerId executionScope heartbeats now).1 ∧
      (m.Faithful → (m.syncExternal ownerId executionScope heartbeats now).1.Faithful) := by
  obtain ⟨hshrinks, hfaithful⟩ := shrinks_foldl_syncLease ownerId executionScope
    (heartbeats.map Heartbeat.id) now hunique.nodup hunique fun _ hn => hn
  refine ⟨hshrinks.trans (shrinks_syncActivity _ _ _ _), fun h => (hfaithful h).of_removals ?_⟩
  apply removals_foldl
  intro m heartbeat
  split
  · split
    · exact removals_touch _ _ _
    rfl
  rfl

theorem shrinks_world (hunique : m.UniqueIds) (event : Event) : m.Shrinks (world m event) := by
  cases event with
  | activate id => exact shrinks_activate id
  | touch id activityAt now => exact shrinks_touch id activityAt now
  | touchResource => exact shrinks_touchResource _ _ _ _ _
  | release id => exact shrinks_delete none id
  | releaseExternal => exact shrinks_releaseExternal _ _ _
  | syncExternal => exact (shrinks_syncExternal hunique).1
  | stop => exact shrinks_stop

theorem faithful_world (h : m.Faithful) (hunique : m.UniqueIds) (event : Event) :
    (world m event).Faithful := by
  cases event with
  | activate id =>
    apply h.of_removals
    change (m.activate id).removals = m.removals
    unfold activate
    split <;> rfl
  | touch id activityAt now => exact h.of_removals (removals_touch _ _ _)
  | touchResource =>
    apply h.of_removals
    apply removals_foldl
    intro m n
    simp only []
    split
    · rfl
    split
    · rfl
    exact removals_touch _ _ _
  | release id => exact faithful_release h id
  | releaseExternal id ownerId executionScope =>
    change (m.releaseExternal id ownerId executionScope).1.Faithful
    unfold releaseExternal
    split
    · simp only []
      split
      · exact h
      exact faithful_release h id
    exact h
  | syncExternal => exact (shrinks_syncExternal hunique).2 h
  | stop =>
    intro removal hmem n hasked
    rcases mem_append.mp hmem with hold | hnew
    · exact h removal hold n hasked
    obtain ⟨k, -, rfl⟩ := mem_map.mp hnew
    cases hasked

/-- A cleanup that comes to the object does something to its identifier. -/
def Due (m : Manager) (now idleCutoff : Int) (n : Nat) : Prop :=
  m.leaseIsOver now n = true ∨ m.isIdle idleCutoff n = true

/-- Whoever comes to the object does no harm. -/
def Harmless (m : Manager) (now idleCutoff : Int) (n : Nat) : Prop :=
  m.Settled n ∨ ¬m.Due now idleCutoff n

theorem Harmless.shrinks (h : m.Harmless now idleCutoff n)
    (ht : m.Shrinks t) : t.Harmless now idleCutoff n := by
  by_cases hn : n ∈ m.entries
  · exact .inl (Settled.shrinks (.inl hn) ht)
  rcases h with hset | hnot
  · exact .inl (hset.shrinks ht)
  refine .inr fun hdue => hnot ?_
  rcases hdue with hlease | hidle
  · left
    unfold leaseIsOver at hlease ⊢
    rw [ht.creation, ht.lease n hn] at hlease
    exact hlease
  right
  unfold isIdle at hidle ⊢
  rw [ht.activity n hn] at hidle
  obtain ⟨hreason, hactivity⟩ := (Bool.and_eq_true _ _).mp hidle
  rw [Bool.and_eq_true]
  exact ⟨decide_eq_true (ht.reason n hn (of_decide_eq_true hreason)), hactivity⟩

/-- What a cleanup has still to do. -/
structure SweepClaim (m : Manager) (now idleCutoff : Int) (rest : List Nat) (pending : Option Nat) :
    Prop where
  rest : ∀ n ∈ rest, n < m.reserved ∧ m.Harmless now idleCutoff n
  pending : ∀ n, pending = some n → n < m.reserved ∧ m.Settled n

theorem SweepClaim.shrinks {rest : List Nat} {pending : Option Nat}
    (h : m.SweepClaim now idleCutoff rest pending) (ht : m.Shrinks t) :
    t.SweepClaim now idleCutoff rest pending where
  rest n hn := by
    obtain ⟨hknown, hharmless⟩ := h.rest n hn
    exact ⟨ht.reserved ▸ hknown, hharmless.shrinks ht⟩
  pending n hn := by
    obtain ⟨hknown, hset⟩ := h.pending n hn
    exact ⟨ht.reserved ▸ hknown, hset.shrinks ht⟩

theorem shrinks_sweep {clock : Int} {reason : Text} {hasActive : Text → Text → Option Text → Bool} :
    m.Shrinks (sweep now idleCutoff clock reason hasActive ns m).1 := by
  induction ns generalizing m with
  | nil => exact Shrinks.refl m
  | cons n rest ih =>
    unfold sweep
    simp only []
    split
    · exact (shrinks_delete _ _).trans ih
    split
    · exact (shrinks_touch _ _ _).trans ih
    split
    · exact shrinks_requestClose n reason
    exact ih

theorem faithful_sweep {clock : Int} {reason : Text}
    {hasActive : Text → Text → Option Text → Bool} (h : m.Faithful)
    (hunique : m.UniqueIds) (hns : m.SweepClaim now idleCutoff ns none) :
    (sweep now idleCutoff clock reason hasActive ns m).1.Faithful ∧
      ∀ rest pending, (sweep now idleCutoff clock reason hasActive ns m).2 = some (rest, pending) →
        (sweep now idleCutoff clock reason hasActive ns m).1.SweepClaim now idleCutoff rest
          pending := by
  induction ns generalizing m with
  | nil => exact ⟨h, fun _ _ hnone => by cases hnone⟩
  | cons n rest ih =>
    obtain ⟨hknown, hharmless⟩ := hns.rest n mem_cons_self
    have hrest : m.SweepClaim now idleCutoff rest none :=
      ⟨fun k hk => hns.rest k (mem_cons_of_mem _ hk), fun _ hnone => by cases hnone⟩
    have hset : m.Due now idleCutoff n → m.Settled n :=
      fun hdue => hharmless.resolve_right fun hnot => hnot hdue
    unfold sweep
    simp only []
    split
    case isTrue hlease =>
      have hdelete := shrinks_delete (m := m) (some n) (m.idOf n)
      exact ih (faithful_delete h hunique (hset (.inl hlease)))
        (hunique.shrinks hdelete) (hrest.shrinks hdelete)
    case isFalse =>
      split
      case isTrue =>
        have htouch := shrinks_touch (m := m) (m.idOf n) clock clock
        exact ih (h.of_removals (removals_touch _ _ _)) (hunique.shrinks htouch)
          (hrest.shrinks htouch)
      case isFalse =>
        split
        case isTrue hidle =>
          have hclose := shrinks_requestClose (m := m) n reason
          have hdue := hset (.inr hidle)
          obtain ⟨hfaithful, hwaits⟩ := faithful_requestClose h hunique hdue reason
          refine ⟨hfaithful, fun last pending heq => ?_⟩
          cases heq
          refine ⟨(hrest.shrinks hclose).rest, fun k hk => ?_⟩
          split at hk
          · cases hk
            exact ⟨hclose.reserved ▸ hknown, hdue.shrinks hclose⟩
          cases hk
        case isFalse => exact ih h hunique hrest

end Manager

end ImApp.ActiveConnections
