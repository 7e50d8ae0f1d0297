import ImApp.DatabaseSync.Keys

/-!
What the pages of the source make of the target. The rows read so far decide: a target
row with the key text of a differing source row takes over that row's values, and a
source row whose key text the target lacks is added. Reading further pages composes.
-/

namespace ImApp.DatabaseSync

open List

variable (server : Server) (schema : Schema) (columns : List Column) (options : DataSyncOptions)

/-- The source row `s` is written over the target row `t`. -/
def changes (s t : Row) : Bool :=
  options.update && rowKey schema.primaryKey s = rowKey schema.primaryKey t &&
    !rowsEqual s t columns

/-- No target row has the key text of `s`. -/
def lacks (target : List Row) (s : Row) : Bool :=
  target.all fun t => rowKey schema.primaryKey t ≠ rowKey schema.primaryKey s

def overwrite (s t : Row) : Row :=
  overwrittenRow (updatedColumns columns schema.primaryKey) s t

def patch (pages : List Row) (t : Row) : Row :=
  match pages.find? fun s => changes schema columns options s t with
  | some s => overwrite schema columns s t
  | none => t

def additions (pages target : List Row) : List Row :=
  if options.insert then
    (pages.filter (lacks schema target)).map (storedRow server columns)
  else []

/-- The target after the source rows `pages`. -/
def afterPages (pages target : List Row) : List Row :=
  target.map (patch schema columns options pages) ++
    additions server schema columns options pages target

variable {server} {schema} {columns} {options} {pages more target : List Row} {s t : Row}

theorem overwrite_key {column : Column} (h : column ∈ schema.primaryKey) :
    overwrite schema columns s t column = t column := by
  simp [overwrite, overwrittenRow, updatedColumns, h]

theorem changes_iff : changes schema columns options s t = true ↔
      options.update = true ∧ rowKey schema.primaryKey s = rowKey schema.primaryKey t ∧
        rowsEqual s t columns = false := by
  simp [changes, and_assoc]

theorem lacks_iff : lacks schema target s = true ↔
      ∀ t ∈ target, rowKey schema.primaryKey t ≠ rowKey schema.primaryKey s := by
  simp [lacks]

/-- A row of the target is left alone or overwritten by a source row with its key text. -/
theorem patch_cases (schema : Schema) (columns : List Column) (options : DataSyncOptions)
    (pages : List Row) (t : Row) : (patch schema columns options pages t = t ∧
      ∀ s ∈ pages, changes schema columns options s t = false) ∨
    ∃ s ∈ pages, changes schema columns options s t = true ∧
      patch schema columns options pages t = overwrite schema columns s t := by
  unfold patch
  cases hfind : pages.find? fun s => changes schema columns options s t with
  | none => exact .inl ⟨rfl, fun s hs => by simpa using find?_eq_none.mp hfind s hs⟩
  | some s =>
    exact .inr ⟨s, mem_of_find?_eq_some hfind,
      find?_some (p := fun s => changes schema columns options s t) hfind, rfl⟩

theorem patch_key {column : Column} (h : column ∈ schema.primaryKey) :
    patch schema columns options pages t column = t column := by
  rcases patch_cases schema columns options pages t with
    ⟨hsame, _⟩ | ⟨s, _, _, hover⟩
  · rw [hsame]
  rw [hover, overwrite_key h]

theorem sameKey_overwrite (collation : Collation) (s t : Row) :
    collation.sameKey schema.primaryKey (overwrite schema columns s t) t :=
  collation.sameKey_of_eq fun _ => overwrite_key

theorem sameKey_patch (collation : Collation) (pages : List Row) (t : Row) :
    collation.sameKey schema.primaryKey (patch schema columns options pages t) t :=
  collation.sameKey_of_eq fun _ => patch_key

theorem rowKey_patch : rowKey schema.primaryKey (patch schema columns options pages t) =
      rowKey schema.primaryKey t :=
  rowKey_of_eq fun _ => patch_key

theorem mem_additions : t ∈ additions server schema columns options pages target ↔
      options.insert = true ∧ ∃ s ∈ pages, lacks schema target s = true ∧
        storedRow server columns s = t := by
  unfold additions
  split
  · simp [*, and_assoc]
  simp [*]

theorem storedRow_apply {column : Column} (h : column ∈ columns) :
    storedRow server columns s column = s column := by
  simp [storedRow, h]

theorem storedRow_readable (h : Readable schema columns s) (hkey : schema.primaryKey ⊆ columns) :
    Readable schema columns (storedRow server columns s) where
  present column hcol := by
    rw [storedRow_apply (hkey hcol)]
    exact h.present column hcol
  typed column hcol := by
    rw [storedRow_apply hcol]
    exact h.typed column hcol

theorem patch_readable (hpages : ∀ s ∈ pages, Readable schema columns s)
    (ht : Readable schema columns t) :
    Readable schema columns (patch schema columns options pages t) where
  present column hcol := by
    rw [patch_key hcol]
    exact ht.present column hcol
  typed column hcol := by
    rcases patch_cases schema columns options pages t with
      ⟨hsame, _⟩ | ⟨s, hs, _, hover⟩
    · rw [hsame]
      exact ht.typed column hcol
    rw [hover, overwrite, overwrittenRow]
    split
    · exact (hpages s hs).typed column hcol
    exact ht.typed column hcol

theorem patch_of_apart (h : ∀ s ∈ pages, rowKey schema.primaryKey s ≠ rowKey schema.primaryKey t) :
    patch schema columns options pages t = t := by
  rcases patch_cases schema columns options pages t with
    ⟨hsame, _⟩ | ⟨s, hs, hchanges, _⟩
  · exact hsame
  exact absurd (changes_iff.mp hchanges).2.1 (h s hs)

section Key

variable (hkey : schema.primaryKey ⊆ columns)
include hkey

theorem sameKey_storedRow (s : Row) :
    server.collation.sameKey schema.primaryKey (storedRow server columns s) s :=
  server.collation.sameKey_of_eq fun _ hcol => storedRow_apply (hkey hcol)

theorem rowKey_storedRow :
    rowKey schema.primaryKey (storedRow server columns s) = rowKey schema.primaryKey s :=
  rowKey_of_eq fun _ hcol => storedRow_apply (hkey hcol)

variable (hapart : ∀ s ∈ pages, ∀ u ∈ more, rowKey schema.primaryKey s ≠ rowKey schema.primaryKey u)
include hapart

omit hkey in
theorem patch_append : patch schema columns options more (patch schema columns options pages t) =
      patch schema columns options (pages ++ more) t := by
  rcases patch_cases schema columns options pages t with
    ⟨hsame, hnone⟩ | ⟨s, hs, hchanges, hover⟩
  · rw [hsame]
    have hfind : pages.find? (fun s => changes schema columns options s t) = none := by
      simpa using hnone
    simp only [patch, find?_append, hfind, Option.none_or]
  have hkeys := (changes_iff.mp hchanges).2.1
  have hmore : patch schema columns options more (patch schema columns options pages t) =
      patch schema columns options pages t := by
    refine patch_of_apart fun u hu => ?_
    rw [rowKey_patch, ← hkeys]
    exact (hapart s hs u hu).symm
  rw [hmore]
  have hfound : (pages.find? fun s => changes schema columns options s t).isSome = true := by
    rw [find?_isSome]
    exact ⟨s, hs, hchanges⟩
  simp only [patch, find?_append, Option.or_of_isSome hfound]

theorem additions_append :
    additions server schema columns options more (afterPages server schema columns options pages target) =
      additions server schema columns options more target := by
  unfold additions
  split
  · refine congrArg _ (filter_congr fun u hu => ?_)
    rw [Bool.eq_iff_iff, lacks_iff, lacks_iff]
    constructor
    · intro h t ht
      have hpatched := h (patch schema columns options pages t)
        (mem_append_left _ (mem_map_of_mem ht))
      rwa [rowKey_patch] at hpatched
    intro h t ht
    rcases mem_append.mp ht with hold | hnew
    · obtain ⟨old, hmem, rfl⟩ := mem_map.mp hold
      rw [rowKey_patch]
      exact h old hmem
    obtain ⟨_, s, hs, _, rfl⟩ := mem_additions.mp hnew
    rw [rowKey_storedRow hkey]
    exact hapart s hs u hu
  rfl

theorem afterPages_append :
    afterPages server schema columns options more (afterPages server schema columns options pages target) =
      afterPages server schema columns options (pages ++ more) target := by
  have hold : (afterPages server schema columns options pages target).map
      (patch schema columns options more) =
        target.map (patch schema columns options (pages ++ more)) ++
          additions server schema columns options pages target := by
    rw [afterPages, map_append, map_map]
    congr 1
    · exact map_congr_left fun t _ => patch_append hapart
    have hstays : ∀ t ∈ additions server schema columns options pages target,
        patch schema columns options more t = t := by
      intro t ht
      obtain ⟨_, s, hs, _, rfl⟩ := mem_additions.mp ht
      refine patch_of_apart fun u hu => ?_
      rw [rowKey_storedRow hkey]
      exact (hapart s hs u hu).symm
    exact (map_congr_left hstays).trans (List.map_id _)
  have hnew : additions server schema columns options (pages ++ more) target =
      additions server schema columns options pages target ++
        additions server schema columns options more target := by
    unfold additions
    split
    · rw [filter_append, map_append]
    rfl
  rw [afterPages, hold, additions_append hkey hapart, afterPages, hnew, append_assoc]

end Key

end ImApp.DatabaseSync
