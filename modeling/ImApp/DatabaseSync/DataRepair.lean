import ImApp.DatabaseSync.Loops

/-!
When a sync makes the target what it promises. The sync is compared with the rows it
should leave, where the server's comparison says which rows have the same key. The two
agree as long as equal keys have equal texts and rows that are taken to be equal are.
-/

namespace ImApp.DatabaseSync

open List Collation

variable {server : Server} {environment : Environment} {schema : Schema} {columns : List Column}
  {options : DataSyncOptions} {source target all : List Row} {s : Session} {a b t : Row}

/-- The target after all source rows `all` and the second loop. -/
def synced (server : Server) (schema : Schema) (columns : List Column) (options : DataSyncOptions)
    (source all target : List Row) : List Row :=
  (afterPages server schema columns options all target).filter fun t =>
    !options.delete || kept schema source t

theorem afterPages_nil : afterPages server schema columns options [] target = target := by
  have hpatch : patch schema columns options ([] : List Row) = id := rfl
  have hadditions : additions server schema columns options [] target = [] := by
    simp [additions]
  rw [afterPages, hpatch, hadditions, List.map_id, append_nil]

theorem transaction_ends (hkey : schema.primaryKey ⊆ columns)
    (hsrc : Rows server schema columns source) (htgt : Rows server schema columns target)
    (counts : Counts) :
    Ends environment.Calm (options.insert = true → NoTwins server schema source target)
      (fun t => ∃ all : List Row, all.Perm (source.map (select columns)) ∧
        Rows server schema columns (afterPages server schema columns options all target) ∧
          t.target = synced server schema columns options source all target)
      (transaction server environment source columns schema.primaryKey options
        ⟨target, 0, counts⟩) := by
  unfold transaction
  refine query_ends.bind fun u hu => ?_
  have hloop := @sourceLoop_ends server environment schema columns options source [] target u
    (options.insert = true → NoTwins server schema source target) none hkey hsrc
    (fun hfits => hfits) (source.length + 1) (fun a ha => by cases ha) (Nat.lt_succ_self _)
    (List.Perm.refl _) (hu.trans afterPages_nil.symm) (by rw [hu]; exact htgt)
  refine hloop.bind ?_
  rintro v ⟨all, hall, hv, hrows⟩
  rw [hv] at hrows
  have hdelete : Ends environment.Calm (options.insert = true → NoTwins server schema source target)
      (fun t => t.target = synced server schema columns options source all target)
      (deleteExtra server environment source schema.primaryKey options v) := by
    unfold deleteExtra
    split
    case isTrue h =>
      have htargetLoop := @targetLoop_ends server environment schema columns source
        (afterPages server schema columns options all target) v
        (options.insert = true → NoTwins server schema source target) none hkey hsrc hrows
        (v.target.length + 1) (fun a ha => by cases ha)
        (by rw [hv]; exact Nat.lt_succ_self _) (by rw [hv]; simp [KeysetPaging.isAfter])
      refine htargetLoop.mono fun w hw => hw.trans (filter_congr fun t _ => ?_)
      rw [h, Bool.not_true, Bool.false_or]
    case isFalse h =>
      refine hv.trans (filter_eq_self.mpr fun t _ => ?_).symm
      rw [Bool.not_eq_true] at h
      rw [h, Bool.not_false, Bool.true_or]
  refine hdelete.bind fun w hw => query_ends.mono fun x hx => ?_
  exact ⟨all, hall, hrows, hx.trans hw⟩

/-- The pages of a sync that got to its commit. -/
structure Committed (server : Server) (schema : Schema) (columns : List Column)
    (options : DataSyncOptions) (source all target : List Row) : Prop where
  key : schema.primaryKey ⊆ columns
  sourceRows : Rows server schema columns source
  targetRows : Rows server schema columns target
  pages : all.Perm (source.map (select columns))
  after : Rows server schema columns (afterPages server schema columns options all target)

theorem eq_of_rowKey (hkey : schema.primaryKey ⊆ columns) {rows : List Row}
    (hrows : Rows server schema columns rows) (ha : a ∈ rows) (hb : b ∈ rows)
    (h : rowKey schema.primaryKey a = rowKey schema.primaryKey b) : a = b :=
  eq_of_sameKey hrows.unique ha hb
    (sameKey_of_rowKey hkey server.collation (hrows.readable a ha) (hrows.readable b hb) h)

theorem rowKey_select (hkey : schema.primaryKey ⊆ columns) :
    rowKey schema.primaryKey (select columns a) = rowKey schema.primaryKey a :=
  rowKey_of_eq fun _ hcol => select_apply (hkey hcol)

theorem restrict_select : restrict columns (select columns a) = restrict columns a :=
  restrict_congr fun _ => select_apply

theorem select_rowsEqual : rowsEqual (select columns a) t columns = rowsEqual a t columns := by
  rw [Bool.eq_iff_iff, rowsEqual_iff, rowsEqual_iff]
  refine forall₂_congr fun column hcol => ?_
  rw [select_apply hcol]

theorem restrict_storedRow : restrict columns (storedRow server columns a) = restrict columns a :=
  restrict_congr fun _ => storedRow_apply

theorem kept_congr (h : rowKey schema.primaryKey a = rowKey schema.primaryKey b) :
    kept schema source a = kept schema source b := by
  rw [kept, kept, h]

theorem sameKey_of_restrict (hkey : schema.primaryKey ⊆ columns)
    (h : restrict columns a = restrict columns b) :
    server.collation.sameKey schema.primaryKey a b :=
  server.collation.sameKey_of_eq fun column hcol => restrict_eq_iff.mp h column (hkey hcol)

theorem restrict_overwrite (hkey : schema.primaryKey ⊆ columns) (ha : Readable schema columns a)
    (ht : Readable schema columns t) (h : rowKey schema.primaryKey a = rowKey schema.primaryKey t) :
    restrict columns (overwrite schema columns a t) = restrict columns a := by
  refine restrict_congr fun column hcol => ?_
  by_cases hprimary : column ∈ schema.primaryKey
  · rw [overwrite_key hprimary]
    exact ((rowKey_inj hkey ha ht).mp h column hprimary).symm
  simp [overwrite, overwrittenRow, updatedColumns, hcol, hprimary]

namespace Committed

variable (h : Committed server schema columns options source all target)
include h

theorem mem_all : b ∈ all ↔ ∃ a ∈ source, select columns a = b := by
  rw [h.pages.mem_iff, mem_map]

theorem allRows : Rows server schema columns all :=
  (h.sourceRows.select h.key).perm h.pages.symm

theorem readable (ha : a ∈ source) : Readable schema columns (select columns a) :=
  (h.sourceRows.select h.key).readable _ (mem_map_of_mem ha)

theorem eq_select (ha : a ∈ source) (hb : b ∈ all)
    (hkeys : rowKey schema.primaryKey b = rowKey schema.primaryKey a) : b = select columns a :=
  eq_of_rowKey h.key h.allRows hb (h.mem_all.mpr ⟨a, ha, rfl⟩)
    (hkeys.trans (rowKey_select h.key).symm)

theorem kept_storedRow (hb : b ∈ all) : kept schema source (storedRow server columns b) = true := by
  obtain ⟨a, ha, rfl⟩ := h.mem_all.mp hb
  refine kept_iff.mpr ⟨a, ha, ?_⟩
  rw [rowKey_storedRow h.key, rowKey_select h.key]

theorem noTwins (hinsert : options.insert = true) : NoTwins server schema source target := by
  intro a ha t ht hsame
  have hmem := h.mem_all.mpr ⟨a, ha, rfl⟩
  cases hlacks : lacks schema target (select columns a) with
  | true =>
    obtain ⟨_, _, hcross⟩ := pairwise_append.mp h.after.unique
    refine absurd ?_ (hcross _ (mem_map_of_mem ht) _
      (mem_additions.mpr ⟨hinsert, _, hmem, hlacks, rfl⟩))
    exact sameKey_trans (sameKey_patch server.collation all t) (sameKey_trans
      (sameKey_symm hsame) (sameKey_trans (sameKey_select h.key)
        (sameKey_symm (sameKey_storedRow h.key _))))
  | false =>
    rw [← Bool.not_eq_true, lacks_iff] at hlacks
    push Not at hlacks
    obtain ⟨other, hother, hkeys⟩ := hlacks
    rw [rowKey_select h.key] at hkeys
    have hothera := sameKey_of_rowKey h.key server.collation
      (h.targetRows.readable other hother) (h.sourceRows.readable a ha) hkeys
    obtain rfl := eq_of_sameKey h.targetRows.unique hother ht (sameKey_trans hothera hsame)
    exact hkeys.symm

/-- The committed rows: the target's own, as far as they are kept, and the added ones. -/
theorem synced_eq : synced server schema columns options source all target =
    (target.filter fun t => !options.delete || kept schema source t).map
        (patch schema columns options all) ++
      additions server schema columns options all target := by
  rw [synced, afterPages, filter_append, filter_map]
  congr 1
  · refine congrArg _ (filter_congr fun t _ => ?_)
    rw [Function.comp_apply, kept_congr rowKey_patch]
  refine filter_eq_self.mpr fun t ht => ?_
  obtain ⟨_, b, hb, _, rfl⟩ := mem_additions.mp ht
  rw [h.kept_storedRow hb, Bool.or_true]

theorem syncedRows :
    Rows server schema columns (synced server schema columns options source all target) :=
  h.after.sublist filter_sublist

theorem patch_of_rowsEqual (ha : a ∈ source)
    (hkeys : rowKey schema.primaryKey a = rowKey schema.primaryKey t)
    (hequal : rowsEqual a t columns = true) : patch schema columns options all t = t := by
  rcases patch_cases schema columns options all t with
    ⟨hsame, _⟩ | ⟨b, hb, hchanges, _⟩
  · exact hsame
  obtain ⟨_, hbt, hdiffers⟩ := changes_iff.mp hchanges
  obtain rfl := h.eq_select ha hb (hbt.trans hkeys.symm)
  rw [select_rowsEqual, hequal] at hdiffers
  exact absurd hdiffers (by decide)

/-- A row that differs from its source row takes over the source row's values. -/
theorem restrict_patch (hupdate : options.update = true) (ha : a ∈ source) (ht : t ∈ target)
    (hkeys : rowKey schema.primaryKey a = rowKey schema.primaryKey t)
    (hequal : rowsEqual a t columns = false) :
    restrict columns (patch schema columns options all t) = restrict columns a := by
  rcases patch_cases schema columns options all t with ⟨_, hnone⟩ | ⟨b, hb, hchanges, hover⟩
  · have hchanges : changes schema columns options (select columns a) t = true := by
      rw [changes_iff, rowKey_select h.key, select_rowsEqual]
      exact ⟨hupdate, hkeys, hequal⟩
    rw [hnone _ (h.mem_all.mpr ⟨a, ha, rfl⟩)] at hchanges
    exact absurd hchanges (by decide)
  obtain ⟨_, hbt, _⟩ := changes_iff.mp hchanges
  obtain rfl := h.eq_select ha hb (hbt.trans hkeys.symm)
  rw [hover, restrict_overwrite h.key (h.readable ha) (h.targetRows.readable t ht) hbt,
    restrict_select]

end Committed

end ImApp.DatabaseSync
