import ImApp.DatabaseSync.DataRepair

/-!
The promise of a data sync and when it is kept. The rows to be left are told by the
server's comparison of keys; with all three options they are the source's rows.
-/

namespace ImApp.DatabaseSync

open List Collation Bool

variable {server : Server} {environment : Environment} {schema : Schema} {columns : List Column}
  {options : DataSyncOptions} {source target all : List Row} {s : Session} {a b t : Row}

section Promise

variable (server : Server) (schema : Schema) (columns : List Column) (options : DataSyncOptions)
  (source target : List Row)

/-- The source row whose key the server takes to be that of `t`. -/
def counterpart (t : Row) : Option Row :=
  source.find? fun a => server.collation.sameKey schema.primaryKey a t

/-- What a target row becomes. -/
def expectedRow (t : Row) : Option (List JsValue) :=
  match counterpart server schema source t with
  | some a => some (restrict columns (if options.update then a else t))
  | none => if options.delete then none else some (restrict columns t)

/-- The source rows whose key the target does not have. -/
def newRows : List Row :=
  source.filter fun a => ∀ t ∈ target, ¬ server.collation.sameKey schema.primaryKey a t

/-- The rows, in the synced columns, that the enabled options ask for. -/
def expected : List (List JsValue) :=
  target.filterMap (expectedRow server schema columns options source) ++
    if options.insert then (newRows server schema source target).map (restrict columns) else []

/-- The sync keeps its promise, whatever happens around it. -/
structure Syncs : Prop where
  ends : ∀ environment,
    (syncTableData server environment source target columns schema.primaryKey options).2 ≠
      .error .endless
  /-- An error leaves the target as it was. -/
  rolledBack : ∀ environment failure,
    (syncTableData server environment source target columns schema.primaryKey options).2 =
      .error failure →
    (syncTableData server environment source target columns schema.primaryKey options).1 = target
  /-- The enabled classes of differences are repaired, and no others. -/
  repaired : ∀ environment counts,
    (syncTableData server environment source target columns schema.primaryKey options).2 =
      .ok counts →
    ((syncTableData server environment source target columns schema.primaryKey options).1.map
      (restrict columns)).Perm (expected server schema columns options source target)
  /-- With all options the target has the source's rows. -/
  equal : ∀ environment counts, options = ⟨true, true, true⟩ →
    (syncTableData server environment source target columns schema.primaryKey options).2 =
      .ok counts →
    ((syncTableData server environment source target columns schema.primaryKey options).1.map
      (restrict columns)).Perm (source.map (restrict columns))
  /-- A second run changes nothing. -/
  settled : ∀ environment later counts,
    (syncTableData server environment source target columns schema.primaryKey options).2 =
      .ok counts →
    (syncTableData server later source
      (syncTableData server environment source target columns schema.primaryKey options).1
      columns schema.primaryKey options).1 =
    (syncTableData server environment source target columns schema.primaryKey options).1

/-- Rows that the sync takes to be equal are equal. -/
def Tells : Prop :=
  ∀ a ∈ source, ∀ t ∈ target, rowKey schema.primaryKey a = rowKey schema.primaryKey t →
    rowsEqual a t columns = true → restrict columns a = restrict columns t

/-- The primary key is among the synced columns, and either an insert meets a key that is
equal for the server but has another text, so that the sync fails, or the keys and the rows
that an enabled option compares are told apart. -/
def Comparable : Prop :=
  schema.primaryKey ⊆ columns ∧ ((options.insert = true ∧ ¬ NoTwins server schema source target) ∨
      ((options.update = true → Tells schema columns source target) ∧
        (options.update = true ∨ options.delete = true → NoTwins server schema source target)))

end Promise

theorem counterpart_some (h : counterpart server schema source t = some a) :
    a ∈ source ∧ server.collation.sameKey schema.primaryKey a t :=
  ⟨mem_of_find?_eq_some h, of_decide_eq_true
    (find?_some (p := fun a => server.collation.sameKey schema.primaryKey a t) h)⟩

theorem counterpart_none (h : counterpart server schema source t = none) (ha : a ∈ source) :
    ¬ server.collation.sameKey schema.primaryKey a t :=
  fun hsame => find?_eq_none.mp h a ha (decide_eq_true hsame)

theorem counterpart_of_sameKey (hsrc : Rows server schema columns source) (ha : a ∈ source)
    (hsame : server.collation.sameKey schema.primaryKey a t) :
    counterpart server schema source t = some a := by
  cases hfind : counterpart server schema source t with
  | none => exact absurd hsame (counterpart_none hfind ha)
  | some other =>
    obtain ⟨hother, hothert⟩ := counterpart_some hfind
    rw [eq_of_sameKey hsrc.unique hother ha
      (sameKey_trans hothert (sameKey_symm hsame))]

theorem expected_all (hsrc : Rows server schema columns source)
    (htgt : Rows server schema columns target) :
    (expected server schema columns ⟨true, true, true⟩ source target).Perm
      (source.map (restrict columns)) := by
  have hrow : expectedRow server schema columns ⟨true, true, true⟩ source =
      fun t => (counterpart server schema source t).map (restrict columns) := by
    funext t
    unfold expectedRow
    cases counterpart server schema source t <;> rfl
  have hnodup : ∀ {rows : List Row}, Unique server schema.primaryKey rows → rows.Nodup := by
    refine fun h => h.imp ?_
    rintro a _ hne rfl
    exact hne (server.collation.sameKey_of_eq fun _ _ => rfl)
  have hmatched : (target.filterMap (counterpart server schema source)).Nodup := by
    refine hnodup (pairwise_filterMap.mpr (htgt.unique.imp ?_))
    intro t u hne a ha b hb hsame
    have hat := (counterpart_some (Option.mem_def.mp ha)).2
    have hbu := (counterpart_some (Option.mem_def.mp hb)).2
    exact hne (sameKey_trans (sameKey_symm hat)
      (sameKey_trans hsame hbu))
  have hperm : (target.filterMap (counterpart server schema source) ++
      newRows server schema source target).Perm source := by
    refine (perm_ext_iff_of_nodup ?_ (hnodup hsrc.unique)).mpr fun a => ?_
    · refine nodup_append.mpr ⟨hmatched, (hnodup hsrc.unique).filter _, ?_⟩
      rintro a ha _ hnew rfl
      obtain ⟨t, ht, hsome⟩ := mem_filterMap.mp ha
      exact of_decide_eq_true (mem_filter.mp hnew).2 t ht (counterpart_some hsome).2
    rw [mem_append, mem_filterMap]
    constructor
    · rintro (⟨t, _, hsome⟩ | hnew)
      · exact (counterpart_some hsome).1
      exact mem_of_mem_filter hnew
    intro ha
    by_cases hnew : ∀ t ∈ target, ¬ server.collation.sameKey schema.primaryKey a t
    · exact .inr (mem_filter.mpr ⟨ha, decide_eq_true hnew⟩)
    push Not at hnew
    obtain ⟨t, ht, hsame⟩ := hnew
    exact .inl ⟨t, ht, counterpart_of_sameKey hsrc ha hsame⟩
  have hexpected : expected server schema columns ⟨true, true, true⟩ source target =
      (target.filterMap (counterpart server schema source) ++
        newRows server schema source target).map (restrict columns) := by
    rw [expected, hrow, map_append, map_filterMap]
    rfl
  rw [hexpected]
  exact hperm.map _

namespace Committed

variable (h : Committed server schema columns options source all target)
include h

/-- The pages' rows in the synced columns, whatever their order. -/
theorem restrict_additions (hinsert : options.insert = true) :
    ((additions server schema columns options all target).map (restrict columns)).Perm
      ((newRows server schema source target).map (restrict columns)) := by
  have hrestrict : (additions server schema columns options all target).map (restrict columns) =
      (all.filter (lacks schema target)).map (restrict columns) := by
    rw [additions, if_pos hinsert, map_map]
    exact map_congr_left fun a _ => restrict_storedRow
  have hfilter : (source.map (select columns)).filter (lacks schema target) =
      (newRows server schema source target).map (select columns) := by
    rw [filter_map]
    refine congrArg _ (filter_congr fun a ha => ?_)
    rw [Function.comp_apply, Bool.eq_iff_iff, decide_eq_true_eq, lacks_iff]
    refine forall₂_congr fun t ht => not_congr ?_
    rw [rowKey_select h.key]
    constructor
    · intro hkeys
      exact sameKey_symm (sameKey_of_rowKey h.key server.collation
        (h.targetRows.readable t ht) (h.sourceRows.readable a ha) hkeys)
    exact fun hsame => (h.noTwins hinsert a ha t ht hsame).symm
  rw [hrestrict]
  refine ((h.pages.filter _).map _).trans ?_
  rw [hfilter, map_map]
  exact List.Perm.of_eq (map_congr_left fun a _ => restrict_select)

section

variable (htells : options.update = true → Tells schema columns source target)
include htells

section

variable (htwins : options.update = true ∨ options.delete = true → NoTwins server schema source target)
include htwins

theorem expectedRow_eq (ht : t ∈ target) : expectedRow server schema columns options source t =
      if !options.delete || kept schema source t then
        some (restrict columns (patch schema columns options all t)) else none := by
  unfold expectedRow
  cases hfound : counterpart server schema source t with
  | none =>
    have hkept : kept schema source t = false := by
      rw [← not_eq_true, kept_iff]
      rintro ⟨a, ha, hkeys⟩
      exact counterpart_none hfound ha (sameKey_of_rowKey h.key server.collation
        (h.sourceRows.readable a ha) (h.targetRows.readable t ht) hkeys)
    have hpatch : patch schema columns options all t = t := by
      refine patch_of_apart fun b hb hkeys => ?_
      obtain ⟨a, ha, rfl⟩ := h.mem_all.mp hb
      rw [rowKey_select h.key] at hkeys
      exact false_ne_true (hkept.symm.trans (kept_iff.mpr ⟨a, ha, hkeys⟩))
    rw [hpatch, hkept]
    cases options.delete <;> rfl
  | some a =>
    obtain ⟨ha, hsame⟩ := counterpart_some hfound
    cases hupdate : options.update with
    | false =>
      have hpatch : patch schema columns options all t = t := by
        rcases patch_cases schema columns options all t with ⟨hpatch, _⟩ | ⟨b, _, hchanges, _⟩
        · exact hpatch
        exact absurd ((changes_iff.mp hchanges).1.symm.trans hupdate) (by decide)
      rw [hpatch]
      cases hdelete : options.delete with
      | false => rfl
      | true =>
        have hkeys := htwins (.inr hdelete) a ha t ht hsame
        rw [kept_iff.mpr ⟨a, ha, hkeys⟩]
        rfl
    | true =>
      have hkeys := htwins (.inl hupdate) a ha t ht hsame
      have hpatch : restrict columns (patch schema columns options all t) = restrict columns a := by
        cases hequal : rowsEqual a t columns with
        | true =>
          rw [h.patch_of_rowsEqual ha hkeys hequal]
          exact (htells hupdate a ha t ht hkeys hequal).symm
        | false => exact h.restrict_patch hupdate ha ht hkeys hequal
      rw [hpatch, kept_iff.mpr ⟨a, ha, hkeys⟩, Bool.or_true]
      rfl

/-- Where keys and rows are told apart, a committed sync leaves the promised rows. -/
theorem repaired :
    ((synced server schema columns options source all target).map (restrict columns)).Perm
      (expected server schema columns options source target) := by
  have hold : ((target.filter fun t => !options.delete || kept schema source t).map
      (patch schema columns options all)).map (restrict columns) =
        target.filterMap (expectedRow server schema columns options source) := by
    rw [map_map, ← filterMap_eq_map, filterMap_filter]
    refine filterMap_congr fun t ht => ?_
    rw [h.expectedRow_eq htells htwins ht]
    rfl
  rw [h.synced_eq, map_append, hold]
  refine List.Perm.append_left _ ?_
  split
  case isTrue hinsert => exact h.restrict_additions hinsert
  case isFalse hinsert =>
    have hnone : additions server schema columns options all target = [] := by
      rw [additions, if_neg hinsert]
    rw [hnone]
    exact List.Perm.refl _

end

end

theorem patched_settles (hb : b ∈ all)
    (ht : t ∈ synced server schema columns options source all target) :
    changes schema columns options b t = false := by
  rw [eq_false_iff]
  intro hchanges
  obtain ⟨hupdate, hbt, hdiffers⟩ := changes_iff.mp hchanges
  have hreadable := h.allRows.readable b hb
  rw [h.synced_eq] at ht
  have hequal : restrict columns t = restrict columns b → False := by
    intro heq
    have hsame : rowsEqual b t columns = true := by
      refine rowsEqual_iff.mpr fun column hcol => ?_
      rw [restrict_eq_iff.mp heq column hcol]
    rw [hdiffers] at hsame
    exact false_ne_true hsame
  obtain ⟨a, ha, rfl⟩ := h.mem_all.mp hb
  rcases mem_append.mp ht with hpatched | hadded
  · obtain ⟨old, hold, rfl⟩ := mem_map.mp hpatched
    have hmem := mem_of_mem_filter hold
    rw [rowKey_patch, rowKey_select h.key] at hbt
    cases hsame : rowsEqual a old columns with
    | true =>
      rw [h.patch_of_rowsEqual ha hbt hsame, select_rowsEqual, hsame] at hdiffers
      exact absurd hdiffers (by decide)
    | false => exact hequal ((h.restrict_patch hupdate ha hmem hbt hsame).trans restrict_select.symm)
  obtain ⟨_, other, hother, _, rfl⟩ := mem_additions.mp hadded
  rw [rowKey_storedRow h.key] at hbt
  obtain rfl := eq_of_rowKey h.key h.allRows hb hother hbt
  exact hequal restrict_storedRow

theorem nothing_lacks (hinsert : options.insert = true) (hb : b ∈ all) :
    lacks schema (synced server schema columns options source all target) b = false := by
  rw [← not_eq_true, lacks_iff]
  intro hlacks
  obtain ⟨a, ha, rfl⟩ := h.mem_all.mp hb
  cases hmissing : lacks schema target (select columns a) with
  | true =>
    refine hlacks (storedRow server columns (select columns a)) ?_ (rowKey_storedRow h.key)
    rw [h.synced_eq]
    exact mem_append_right _ (mem_additions.mpr ⟨hinsert, _, hb, hmissing, rfl⟩)
  | false =>
    rw [← not_eq_true, lacks_iff] at hmissing
    push Not at hmissing
    obtain ⟨t, ht, hkeys⟩ := hmissing
    have hkept : kept schema source t = true :=
      kept_iff.mpr ⟨a, ha, ((rowKey_select h.key).symm.trans hkeys.symm)⟩
    refine hlacks (patch schema columns options all t) ?_ (rowKey_patch.trans hkeys)
    rw [h.synced_eq]
    refine mem_append_left _ (mem_map_of_mem (mem_filter.mpr ⟨ht, ?_⟩))
    rw [hkept, Bool.or_true]

theorem synced_again {again : List Row} (hagain : again.Perm (source.map (select columns))) :
    synced server schema columns options source again
        (synced server schema columns options source all target) =
      synced server schema columns options source all target := by
  have hmem : ∀ b ∈ again, b ∈ all := fun b hb =>
    h.pages.mem_iff.mpr (hagain.mem_iff.mp hb)
  have hpatch : (synced server schema columns options source all target).map
      (patch schema columns options again) =
        synced server schema columns options source all target := by
    refine (map_congr_left fun t ht => ?_).trans (List.map_id _)
    rcases patch_cases schema columns options again t with ⟨hsame, _⟩ | ⟨b, hb, hchanges, _⟩
    · exact hsame
    rw [h.patched_settles (hmem b hb) ht] at hchanges
    exact absurd hchanges (by decide)
  have hadditions : additions server schema columns options again
      (synced server schema columns options source all target) = [] := by
    unfold additions
    split
    case isTrue hinsert =>
      rw [filter_eq_nil_iff.mpr fun b hb => ?_, map_nil]
      rw [h.nothing_lacks hinsert (hmem b hb)]
      exact false_ne_true
    case isFalse => rfl
  conv_lhs => rw [synced, afterPages, hpatch, hadditions, append_nil]
  refine filter_eq_self.mpr fun t ht => ?_
  exact (mem_filter.mp ht).2

end Committed

end ImApp.DatabaseSync
