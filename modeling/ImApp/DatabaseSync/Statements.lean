import ImApp.DatabaseSync.SourcePages

/-!
What the statements of a sync do, and how they can end: with their effect, with an error
of the connection or a cancellation, or because an inserted key is taken. An error of the
last kind means that some inserted key does not fit.
-/

namespace ImApp.DatabaseSync

open List Function

/-- No query fails and nobody cancels. -/
structure Environment.Calm (environment : Environment) : Prop where
  succeeds : ∀ n, environment.fails n = false
  proceeds : ∀ n, environment.cancelled n = false

/-- A computation ends with a result as in `post`. It fails for a taken key only if not
`fits`, and otherwise only if not `calm`. -/
def Ends {α : Type} (calm fits : Prop) (post : α → Prop) : Sync α → Prop
  | .ok a => post a
  | .error .duplicate => ¬ fits
  | .error .endless => False
  | .error _ => ¬ calm

variable {α β : Type} {calm fits : Prop} {mid post : α → Prop} {goal : β → Prop}
  {x : Sync α} {f : α → Sync β}

theorem Ends.bind (hx : Ends calm fits mid x)
    (hf : ∀ a, mid a → Ends calm fits goal (f a)) : Ends calm fits goal (x >>= f) := by
  cases x with
  | ok a => exact hf a hx
  | error failure => cases failure <;> exact hx

theorem Ends.mono (hx : Ends calm fits mid x) (h : ∀ a, mid a → post a) :
    Ends calm fits post x := by
  cases x with
  | ok a => exact h a hx
  | error failure => cases failure <;> exact hx

theorem Ends.ok_of_calm (hx : Ends calm fits post x) (hcalm : calm) (hfits : fits) :
    ∃ a, x = .ok a ∧ post a := by
  cases x with
  | ok a => exact ⟨a, rfl, hx⟩
  | error failure =>
    cases failure with
    | duplicate => exact absurd hfits hx
    | endless => exact hx.elim
    | query | cancelled => exact absurd hcalm hx

variable {server : Server} {environment : Environment} {schema : Schema}
  {columns primaryKey : List Column} {table rows : List Row} {s : Session} {fits : Prop}

theorem query_ends :
    Ends environment.Calm fits (fun t => t.target = s.target) (s.query environment) := by
  unfold Session.query
  split
  case isTrue h => exact fun hcalm => by simp [hcalm.succeeds] at h
  case isFalse => rfl

theorem checkCancelled_ends :
    Ends environment.Calm fits (fun _ => True) (checkCancelled environment s) := by
  unfold checkCancelled
  split
  case isTrue h => exact fun hcalm => by simp [hcalm.proceeds] at h
  case isFalse => exact True.intro

/-- The rows of a table that match one of the given rows by the server's comparison. -/
def matching (server : Server) (primaryKey : List Column) (table rows : List Row) : List Row :=
  table.filter fun t => rows.any fun row =>
    server.collation.tupleEqual primaryKey t (primaryKey.map row)

theorem lookupRows_ends : Ends environment.Calm fits (fun found =>
        found.1 = (matching server primaryKey table rows).map (select columns) ∧
          found.2.target = s.target)
      (lookupRows server environment s table columns primaryKey rows) := by
  unfold lookupRows
  split
  case isTrue h =>
    rw [List.isEmpty_iff] at h
    subst h
    exact ⟨by simp [matching], rfl⟩
  case isFalse =>
    refine query_ends.bind fun t ht => ⟨?_, ht⟩
    simp [matching, any_map, comp_def]

theorem deleteRows_ends : Ends environment.Calm fits (fun t => t.target = s.target.filter fun row =>
        !rows.any fun extra => server.collation.tupleEqual primaryKey row (primaryKey.map extra))
      (deleteRows server environment s primaryKey rows) := by
  unfold deleteRows
  split
  case isTrue h =>
    rw [List.isEmpty_iff] at h
    subst h
    simp [Ends]
  case isFalse =>
    refine query_ends.bind fun t ht => ?_
    simp [Ends, pure, Except.pure, ht, any_map, comp_def]

/-- No two of the rows have equal keys. -/
abbrev Unique (server : Server) (primaryKey : List Column) (rows : List Row) : Prop :=
  rows.Pairwise fun a b => ¬ server.collation.sameKey primaryKey a b

theorem storeRows_ends (htable : Unique server primaryKey table)
    (hfits : fits → Unique server primaryKey (table ++ rows.map (storedRow server columns))) :
    Ends calm fits (fun stored =>
        stored = table ++ rows.map (storedRow server columns) ∧ Unique server primaryKey stored)
      (storeRows server columns primaryKey table rows) := by
  induction rows generalizing table with
  | nil => exact ⟨by simp, htable⟩
  | cons row rows ih =>
    rw [storeRows]
    split
    case isTrue htaken =>
      intro h
      obtain ⟨other, hother, hsame⟩ := any_eq_true.mp htaken
      obtain ⟨_, _, hcross⟩ := pairwise_append.mp (hfits h)
      exact hcross other hother _ (by simp) (of_decide_eq_true hsame)
    case isFalse hfree =>
      have hunique : Unique server primaryKey (table ++ [storedRow server columns row]) := by
        refine pairwise_append.mpr ⟨htable, pairwise_singleton _ _, ?_⟩
        intro other hother stored hstored hsame
        rw [mem_singleton] at hstored
        subst hstored
        exact hfree (any_eq_true.mpr ⟨other, hother, decide_eq_true hsame⟩)
      refine (ih hunique (fun h => ?_)).mono fun stored hstored => ?_
      · simpa using hfits h
      simpa using hstored

theorem insertBatches_ends {chunks : List (List Row)} (htable : Unique server primaryKey s.target)
    (hfits : fits →
      Unique server primaryKey (s.target ++ chunks.flatten.map (storedRow server columns))) :
    Ends environment.Calm fits (fun t =>
        t.target = s.target ++ chunks.flatten.map (storedRow server columns) ∧
          Unique server primaryKey t.target)
      (insertBatches server environment columns primaryKey chunks s) := by
  induction chunks generalizing s with
  | nil => exact ⟨by simp, htable⟩
  | cons chunk chunks ih =>
    rw [insertBatches]
    refine query_ends.bind fun t ht => ?_
    rw [ht]
    refine (storeRows_ends htable fun h => ?_).bind fun stored hstored => ?_
    · have hall := hfits h
      rw [flatten_cons, map_append, ← append_assoc] at hall
      exact (pairwise_append.mp hall).1
    obtain ⟨hstored, hunique⟩ := hstored
    refine (ih hunique fun h => ?_).mono fun u hu => ⟨?_, hu.2⟩
    · simpa [hstored] using hfits h
    simpa [hstored] using hu.1

theorem flatten_batches (rows : List Row) : (batches rows).flatten = rows := by
  have htake : ∀ m n, ((List.range m).map fun index => (rows.drop (index * n)).take n).flatten =
      rows.take (m * n) := by
    intro m n
    induction m with
    | zero => simp
    | succ m ih =>
      rw [range_succ, map_append, flatten_append, ih, Nat.succ_mul, take_add]
      simp
  rw [batches, htake, take_of_length_le]
  unfold insertBatchSize
  omega

theorem insertRows_ends (htable : Unique server primaryKey s.target)
    (hfits : fits → Unique server primaryKey (s.target ++ rows.map (storedRow server columns))) :
    Ends environment.Calm fits (fun t =>
        t.target = s.target ++ rows.map (storedRow server columns) ∧
          Unique server primaryKey t.target)
      (insertRows server environment s columns primaryKey rows) := by
  have h := @insertBatches_ends server environment columns primaryKey s fits (batches rows) htable
  rw [flatten_batches] at h
  exact h hfits

/-- What updates one after another make of one row. -/
def updated (server : Server) (columns primaryKey : List Column) (rows : List Row) (t : Row) : Row :=
  rows.foldl (fun t row =>
    if server.collation.tupleEqual primaryKey t (primaryKey.map row) then
      overwrittenRow (updatedColumns columns primaryKey) row t
    else t) t

theorem updateEach_ends : Ends environment.Calm fits
      (fun t => t.target = s.target.map (updated server columns primaryKey rows))
      (updateEach server environment (updatedColumns columns primaryKey) primaryKey rows s) := by
  induction rows generalizing s with
  | nil => exact (List.map_id _).symm
  | cons row rows ih =>
    rw [updateEach]
    refine query_ends.bind fun t ht => ih.mono fun u hu => ?_
    rw [hu, ht, updateRow, map_map]
    rfl

theorem updated_of_none (h : updatedColumns columns primaryKey = []) (t : Row) :
    updated server columns primaryKey rows t = t := by
  induction rows with
  | nil => rfl
  | cons row rows ih =>
    rw [updated, foldl_cons]
    have hsame : overwrittenRow (updatedColumns columns primaryKey) row t = t := by
      funext column
      simp [overwrittenRow, h]
    rw [hsame, ite_self]
    exact ih

theorem updateRows_ends : Ends environment.Calm fits
      (fun t => t.target = s.target.map (updated server columns primaryKey rows))
      (updateRows server environment s columns primaryKey rows) := by
  unfold updateRows
  dsimp only
  split
  case isTrue h =>
    rw [List.isEmpty_iff] at h
    have hid : updated server columns primaryKey rows = id := funext fun t => updated_of_none h t
    simp [Ends, hid]
  case isFalse => exact updateEach_ends

end ImApp.DatabaseSync
