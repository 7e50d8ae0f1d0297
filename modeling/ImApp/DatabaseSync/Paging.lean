import ImApp.DatabaseSync.Statements

/-!
The two loops of a sync. One page of the source acts on the target as the closed form of
its rows; by induction on the pages still to be read all of the source acts as one page.
The second loop keeps the target rows whose key text the source has.
-/

namespace ImApp.DatabaseSync

open List Collation Bool

variable {server : Server} {environment : Environment} {schema : Schema} {columns : List Column}
  {options : DataSyncOptions} {table rows pages target : List Row} {s : Session} {fits : Prop}
  {a b t : Row}

theorem updated_eq (hunique : Unique server schema.primaryKey rows)
    (hpresent : ∀ row ∈ rows, ∀ column ∈ schema.primaryKey, (row column).isNull = false) (t : Row) :
    updated server columns schema.primaryKey rows t =
      match rows.find? fun row => server.collation.sameKey schema.primaryKey row t with
      | some row => overwrite schema columns row t
      | none => t := by
  induction rows generalizing t with
  | nil => rfl
  | cons row rows ih =>
    obtain ⟨hrow, hrest⟩ := pairwise_cons.mp hunique
    have hih := ih hrest fun other hother => hpresent other (mem_cons_of_mem _ hother)
    have hequal : server.collation.tupleEqual schema.primaryKey t (schema.primaryKey.map row) =
        true ↔ server.collation.sameKey schema.primaryKey row t :=
      tupleEqual_iff (hpresent row mem_cons_self)
    rw [updated, foldl_cons]
    change updated server columns schema.primaryKey rows _ = _
    by_cases hsame : server.collation.sameKey schema.primaryKey row t
    · rw [if_pos (hequal.mpr hsame), hih, find?_cons_of_pos (by simpa using hsame)]
      have hnone : rows.find? (fun other => server.collation.sameKey schema.primaryKey other
          (overwrittenRow (updatedColumns columns schema.primaryKey) row t)) = none := by
        refine find?_eq_none.mpr fun other hother hother' => hrow other hother ?_
        exact sameKey_trans hsame (sameKey_symm
          (sameKey_trans (of_decide_eq_true hother')
            (sameKey_overwrite server.collation row t)))
      rw [hnone]
      rfl
    rw [if_neg (mt hequal.mp hsame), hih, find?_cons_of_neg (by simpa using hsame)]

theorem eq_of_sameKey (h : Unique server schema.primaryKey rows) (ha : a ∈ rows) (hb : b ∈ rows)
    (hsame : server.collation.sameKey schema.primaryKey a b) : a = b := by
  induction rows with
  | nil => cases ha
  | cons row rows ih =>
    obtain ⟨hrow, hrest⟩ := pairwise_cons.mp h
    rcases mem_cons.mp ha with rfl | harest
    · rcases mem_cons.mp hb with rfl | hbrest
      · rfl
      exact absurd hsame (hrow b hbrest)
    rcases mem_cons.mp hb with rfl | hbrest
    · exact absurd (sameKey_symm hsame) (hrow a harest)
    exact ih hrest harest hbrest

/-- Rows read from one of the tables: readable and with keys of their own. -/
structure Rows (server : Server) (schema : Schema) (columns : List Column) (rows : List Row) :
    Prop where
  unique : Unique server schema.primaryKey rows
  readable : ∀ row ∈ rows, Readable schema columns row

theorem Sound.toRows (h : Sound server.collation schema columns table) :
    Rows server schema columns table :=
  ⟨h.unique, fun _ => h.readable⟩

section Key

variable (hkey : schema.primaryKey ⊆ columns)
include hkey

theorem findByKey_lookup (htgt : Rows server schema columns target)
    (hrows : ∀ row ∈ rows, Readable schema columns row) (ha : a ∈ rows) {found : Option Row}
    (hfound : findByKey schema.primaryKey
      ((matching server schema.primaryKey target rows).map (select columns))
      (rowKey schema.primaryKey a) = found) : (found = none ∧ lacks schema target a = true) ∨
      ∃ t ∈ target, found = some (select columns t) ∧
        rowKey schema.primaryKey t = rowKey schema.primaryKey a := by
  have hselect : ∀ t : Row, rowKey schema.primaryKey (select columns t) =
      rowKey schema.primaryKey t := fun t =>
    rowKey_of_eq fun column hcol => select_apply (hkey hcol)
  cases found with
  | none =>
    refine .inl ⟨rfl, lacks_iff.mpr fun t ht heq => ?_⟩
    have hnone := find?_eq_none.mp hfound (select columns t) ?_
    · rw [hselect] at hnone
      exact hnone (decide_eq_true heq)
    refine mem_reverse.mpr (mem_map_of_mem (mem_filter.mpr ⟨ht, ?_⟩))
    refine any_eq_true.mpr ⟨a, ha, ?_⟩
    rw [tupleEqual_iff (hrows a ha).present]
    exact sameKey_of_rowKey hkey server.collation (hrows a ha) (htgt.readable t ht) heq.symm
  | some row =>
    have hmem := mem_of_find?_eq_some hfound
    have hkeys := find?_some
      (p := fun row => decide (rowKey schema.primaryKey row = rowKey schema.primaryKey a)) hfound
    rw [decide_eq_true_eq] at hkeys
    obtain ⟨t, ht, rfl⟩ := mem_map.mp (mem_reverse.mp hmem)
    rw [hselect] at hkeys
    exact .inr ⟨t, mem_of_mem_filter ht, rfl, hkeys⟩

/-- A source row of the page is written over a target row with its key text that
differs. -/
def Differs (schema : Schema) (columns : List Column) (target : List Row) (a : Row) : Prop :=
  ∃ t ∈ target, rowKey schema.primaryKey t = rowKey schema.primaryKey a ∧
    rowsEqual a t columns = false

theorem updated_patch {changed : List Row} (htgt : Rows server schema columns target)
    (hpages : Rows server schema columns pages) (hupdate : options.update = true)
    (hsub : changed.Sublist pages)
    (hchanged : ∀ a ∈ pages, a ∈ changed ↔ Differs schema columns target a) (ht : t ∈ target) :
    updated server columns schema.primaryKey changed t = patch schema columns options pages t := by
  have hunique : Unique server schema.primaryKey changed := hpages.unique.sublist hsub
  rw [updated_eq hunique fun row hrow => (hpages.readable row (hsub.subset hrow)).present]
  rcases patch_cases schema columns options pages t with
    ⟨hsame, hnone⟩ | ⟨a, ha, hchanges, hover⟩
  · have hfind : changed.find? (fun row => server.collation.sameKey schema.primaryKey row t) =
        none := by
      refine find?_eq_none.mpr fun a ha hat => ?_
      obtain ⟨other, hother, hkeys, hdiffers⟩ := (hchanged a (hsub.subset ha)).mp ha
      have hreadable := hpages.readable a (hsub.subset ha)
      have hsameKey := sameKey_trans
        (sameKey_of_rowKey hkey server.collation (htgt.readable other hother) hreadable hkeys)
        (of_decide_eq_true hat)
      obtain rfl := eq_of_sameKey htgt.unique hother ht hsameKey
      have hfalse := hnone a (hsub.subset ha)
      rw [changes_iff.mpr ⟨hupdate, hkeys.symm, hdiffers⟩] at hfalse
      exact absurd hfalse (by decide)
    rw [hfind, hsame]
  obtain ⟨_, hkeys, hdiffers⟩ := changes_iff.mp hchanges
  have hmem : a ∈ changed := (hchanged a ha).mpr ⟨t, ht, hkeys.symm, hdiffers⟩
  have hat := sameKey_of_rowKey hkey server.collation (hpages.readable a ha)
    (htgt.readable t ht) hkeys
  cases hfind : changed.find? fun row => server.collation.sameKey schema.primaryKey row t with
  | none =>
    exact absurd (decide_eq_true hat) (find?_eq_none.mp hfind a hmem)
  | some other =>
    have hother := find?_some
      (p := fun row => decide (server.collation.sameKey schema.primaryKey row t)) hfind
    rw [decide_eq_true_eq] at hother
    obtain rfl := eq_of_sameKey hunique (mem_of_find?_eq_some hfind) hmem
      (sameKey_trans hother (sameKey_symm hat))
    exact hover.symm

theorem updated_added {changed : List Row} (hpages : Rows server schema columns pages)
    (hsub : changed.Sublist pages)
    (hchanged : ∀ a ∈ pages, a ∈ changed ↔ Differs schema columns target a) (ha : a ∈ pages)
    (hlacks : lacks schema target a = true) :
    updated server columns schema.primaryKey changed (storedRow server columns a) =
      storedRow server columns a := by
  have hunique : Unique server schema.primaryKey changed := hpages.unique.sublist hsub
  rw [updated_eq hunique fun row hrow => (hpages.readable row (hsub.subset hrow)).present]
  have hfind : changed.find? (fun row => server.collation.sameKey schema.primaryKey row
      (storedRow server columns a)) = none := by
    refine find?_eq_none.mpr fun other hother hsame => ?_
    obtain rfl := eq_of_sameKey hpages.unique (hsub.subset hother) ha
      (sameKey_trans (of_decide_eq_true hsame) (sameKey_storedRow hkey a))
    obtain ⟨t, ht, hkeys, _⟩ := (hchanged other ha).mp hother
    exact lacks_iff.mp hlacks t ht hkeys
  rw [hfind]

theorem Rows.afterPages (htgt : Rows server schema columns target)
    (hpages : ∀ a ∈ pages, Readable schema columns a) (hunique : Unique server schema.primaryKey
      (target ++ additions server schema columns options pages target)) :
    Rows server schema columns (afterPages server schema columns options pages target) where
  unique := by
    obtain ⟨_, hadded, hcross⟩ := pairwise_append.mp hunique
    have hsame : ∀ t, server.collation.sameKey schema.primaryKey t
        (patch schema columns options pages t) := fun t =>
      sameKey_symm (sameKey_patch server.collation pages t)
    refine pairwise_append.mpr ⟨?_, hadded, ?_⟩
    · refine pairwise_map.mpr (htgt.unique.imp fun {t u} hne heq => hne ?_)
      exact sameKey_trans (hsame t)
        (sameKey_trans heq (sameKey_symm (hsame u)))
    intro t ht u hu heq
    obtain ⟨old, hold, rfl⟩ := mem_map.mp ht
    exact hcross old hold u hu (sameKey_trans (hsame old) heq)
  readable := by
    intro t ht
    rcases mem_append.mp ht with hpatched | hnew
    · obtain ⟨old, hold, rfl⟩ := mem_map.mp hpatched
      exact patch_readable hpages (htgt.readable old hold)
    obtain ⟨_, a, ha, _, rfl⟩ := mem_additions.mp hnew
    exact storedRow_readable (hpages a ha) hkey

omit hkey in
theorem rowsEqual_select : rowsEqual a (select columns t) columns = rowsEqual a t columns := by
  rw [Bool.eq_iff_iff, rowsEqual_iff, rowsEqual_iff]
  refine forall₂_congr fun column hcol => ?_
  rw [select_apply hcol]

omit hkey in
theorem insertMissing_ends (htgt : Rows server schema columns s.target)
    (hfits : fits → Unique server schema.primaryKey
      (s.target ++ additions server schema columns options pages s.target)) :
    Ends environment.Calm fits (fun t =>
        t.target = s.target ++ additions server schema columns options pages s.target ∧
          Unique server schema.primaryKey t.target)
      (insertMissing server environment columns schema.primaryKey options
        (pages.filter (lacks schema s.target)) s) := by
  unfold insertMissing
  split
  case isTrue h =>
    rw [and_eq_true] at h
    rw [additions, if_pos h.1] at hfits ⊢
    exact (insertRows_ends htgt.unique hfits).bind fun t ht => ht
  case isFalse h =>
    have hadditions : additions server schema columns options pages s.target = [] := by
      rw [additions]
      split
      case isTrue hinsert => simpa [hinsert] using h
      case isFalse => rfl
    rw [hadditions, append_nil]
    exact ⟨rfl, htgt.unique⟩

theorem updateChanged_ends {u : Session} {changed : List Row}
    (htgt : Rows server schema columns target) (hpages : Rows server schema columns pages)
    (hsub : changed.Sublist pages)
    (hchanged : ∀ a ∈ pages, a ∈ changed ↔ Differs schema columns target a)
    (hu : u.target = target ++ additions server schema columns options pages target) :
    Ends environment.Calm fits (fun t =>
        t.target = afterPages server schema columns options pages target)
      (updateChanged server environment columns schema.primaryKey options changed u) := by
  unfold updateChanged
  split
  case isTrue h =>
    rw [and_eq_true] at h
    refine updateRows_ends.bind fun v hv => ?_
    change v.target = _
    rw [hv, hu, map_append, afterPages]
    congr 1
    · exact map_congr_left fun t ht => updated_patch hkey htgt hpages h.1 hsub hchanged ht
    refine (map_congr_left fun t ht => ?_).trans (List.map_id _)
    obtain ⟨_, a, ha, hlacks, rfl⟩ := mem_additions.mp ht
    exact updated_added hkey hpages hsub hchanged ha hlacks
  case isFalse h =>
    change u.target = _
    rw [hu, afterPages]
    congr 1
    refine (List.map_id _).symm.trans (map_congr_left fun t ht => ?_)
    rcases patch_cases schema columns options pages t with
      ⟨hsame, _⟩ | ⟨a, ha, hchanges, _⟩
    · exact hsame.symm
    obtain ⟨hupdate, hkeys, hdiffers⟩ := changes_iff.mp hchanges
    have hmem : a ∈ changed := (hchanged a ha).mpr ⟨t, ht, hkeys.symm, hdiffers⟩
    rw [hupdate, Bool.true_and, Bool.not_eq_true', Bool.not_eq_false, List.isEmpty_iff] at h
    rw [h] at hmem
    cases hmem

theorem sourceStep_ends (htgt : Rows server schema columns s.target)
    (hpages : Rows server schema columns pages) (hfits : fits → Unique server schema.primaryKey
      (s.target ++ additions server schema columns options pages s.target)) :
    Ends environment.Calm fits (fun t =>
        t.target = afterPages server schema columns options pages s.target ∧
          Rows server schema columns t.target)
      (sourceStep server environment columns schema.primaryKey options pages
        ((matching server schema.primaryKey s.target pages).map (select columns)) s) := by
  have hfind := fun a ha => @findByKey_lookup server schema columns pages s.target a hkey htgt
    hpages.readable ha _ rfl
  unfold sourceStep
  extract_lets missing changed
  have hmissing : missing = pages.filter (lacks schema s.target) := by
    refine filter_congr fun a ha => ?_
    rcases hfind a ha with ⟨hnone, hlacks⟩ | ⟨t, ht, hsome, hkeys⟩
    · rw [hnone, hlacks]
      rfl
    have hfound : lacks schema s.target a = false := by
      rw [eq_false_iff]
      exact fun h => lacks_iff.mp h t ht hkeys
    rw [hsome, hfound]
    rfl
  have hchanged : ∀ a ∈ pages, a ∈ changed ↔ Differs schema columns s.target a := by
    intro a ha
    rw [mem_filter, and_iff_right ha]
    rcases hfind a ha with ⟨hnone, hlacks⟩ | ⟨t, ht, hsome, hkeys⟩
    · rw [hnone]
      simp only [false_eq_true, false_iff]
      rintro ⟨t, ht, hkeys, _⟩
      exact lacks_iff.mp hlacks t ht hkeys
    rw [hsome]
    simp only [rowsEqual_select, not_eq_true']
    refine ⟨fun h => ⟨t, ht, hkeys, h⟩, ?_⟩
    rintro ⟨other, hother, hkeys', h⟩
    have hsame := sameKey_of_rowKey hkey server.collation
      (htgt.readable other hother) (htgt.readable t ht) (hkeys'.trans hkeys.symm)
    obtain rfl := eq_of_sameKey htgt.unique hother ht hsame
    exact h
  rw [hmissing]
  refine (insertMissing_ends htgt hfits).bind fun u hu => ?_
  obtain ⟨hu, hunique⟩ := hu
  rw [hu] at hunique
  refine (updateChanged_ends hkey htgt hpages filter_sublist hchanged hu).mono fun v hv => ⟨hv, ?_⟩
  rw [hv]
  exact htgt.afterPages hkey hpages.readable hunique

end Key

end ImApp.DatabaseSync
