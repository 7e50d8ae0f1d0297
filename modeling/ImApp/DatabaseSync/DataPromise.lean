import ImApp.DatabaseSync.RowsInSync

/-!
A sync keeps its promise exactly where keys and rows are told apart. Twins, keys that the
server takes to be equal and the sync does not, are rows it neither updates nor spares
from deletion; values that are taken to be equal without being so stay as they were.
-/

namespace ImApp.DatabaseSync

open List Collation Option

variable {server : Server} {environment : Environment} {schema : Schema} {columns : List Column}
  {options : DataSyncOptions} {source target all : List Row} {a b t : Row}

section

variable (hkey : schema.primaryKey ⊆ columns)
include hkey

/-- A sync fails and leaves the target alone, or commits the closed form of its pages. -/
theorem syncTableData_cases
    (hsrc : Rows server schema columns source) (htgt : Rows server schema columns target)
    (environment : Environment) : (∃ failure, failure ≠ .endless ∧
      syncTableData server environment source target columns schema.primaryKey options =
        (target, .error failure)) ∨
    ∃ counts all, Committed server schema columns options source all target ∧
      syncTableData server environment source target columns schema.primaryKey options =
        (synced server schema columns options source all target, .ok counts) := by
  have hends := @transaction_ends server environment schema columns options source target hkey
    hsrc htgt ⟨0, 0, 0⟩
  unfold syncTableData
  cases hres : transaction server environment source columns schema.primaryKey options
      ⟨target, 0, ⟨0, 0, 0⟩⟩ with
  | ok s =>
    rw [hres] at hends
    obtain ⟨all, hall, hrows, hs⟩ := hends
    exact .inr ⟨s.counts, all, ⟨hkey, hsrc, htgt, hall, hrows⟩, Prod.ext hs rfl⟩
  | error failure =>
    refine .inl ⟨failure, ?_, rfl⟩
    rintro rfl
    rw [hres] at hends
    exact hends

/-- Undisturbed, a sync commits unless an inserted key is taken. -/
theorem syncTableData_commits
    (hsrc : Rows server schema columns source) (htgt : Rows server schema columns target)
    (hcalm : environment.Calm)
    (hfits : options.insert = true → NoTwins server schema source target) :
    ∃ counts all, Committed server schema columns options source all target ∧
      syncTableData server environment source target columns schema.primaryKey options =
        (synced server schema columns options source all target, .ok counts) := by
  have hends := @transaction_ends server environment schema columns options source target hkey
    hsrc htgt ⟨0, 0, 0⟩
  obtain ⟨s, hres, all, hall, hrows, hs⟩ := hends.ok_of_calm hcalm hfits
  refine ⟨s.counts, all, ⟨hkey, hsrc, htgt, hall, hrows⟩, ?_⟩
  rw [syncTableData, hres]
  exact Prod.ext hs rfl

theorem syncs_of_repaired
    (hsrc : Rows server schema columns source) (htgt : Rows server schema columns target)
    (h : ∀ all, Committed server schema columns options source all target →
      ((synced server schema columns options source all target).map (restrict columns)).Perm
        (expected server schema columns options source target)) :
    Syncs server schema columns options source target := by
  have hcases := @syncTableData_cases server schema columns options source target hkey hsrc htgt
  have hrepaired : ∀ environment counts,
      (syncTableData server environment source target columns schema.primaryKey options).2 =
        .ok counts →
      ((syncTableData server environment source target columns schema.primaryKey options).1.map
        (restrict columns)).Perm (expected server schema columns options source target) := by
    intro environment counts hok
    rcases hcases environment with ⟨failure, _, heq⟩ | ⟨_, all, hcommitted, heq⟩
    · rw [heq] at hok
      cases hok
    rw [heq]
    exact h all hcommitted
  refine ⟨?_, ?_, hrepaired, ?_, ?_⟩
  · intro environment hendless
    rcases hcases environment with ⟨failure, hne, heq⟩ | ⟨_, _, _, heq⟩
    · rw [heq] at hendless
      exact hne (Except.error.inj hendless)
    rw [heq] at hendless
    cases hendless
  · intro environment failure herror
    rcases hcases environment with ⟨_, _, heq⟩ | ⟨_, _, _, heq⟩
    · rw [heq]
    rw [heq] at herror
    cases herror
  · rintro environment counts rfl hok
    exact (hrepaired environment counts hok).trans (expected_all hsrc htgt)
  intro environment later counts hok
  rcases hcases environment with ⟨_, _, heq⟩ | ⟨_, all, hcommitted, heq⟩
  · rw [heq] at hok
    cases hok
  rw [heq]
  rcases @syncTableData_cases server schema columns options source
    (synced server schema columns options source all target) hkey hsrc
    hcommitted.syncedRows later with ⟨_, _, hagain⟩ | ⟨_, again, hcommitted', hagain⟩
  · rw [hagain]
  rw [hagain]
  exact hcommitted.synced_again hcommitted'.pages

end

theorem undisturbed : (⟨fun _ => false, fun _ => false⟩ : Environment).Calm :=
  ⟨fun _ => rfl, fun _ => rfl⟩

/-- A row that is among the promised ones and has the key of a source row is that source
row, when changed rows are updated. -/
theorem restrict_of_expected (hkey : schema.primaryKey ⊆ columns)
    (hsrc : Rows server schema columns source) (hupdate : options.update = true)
    (ha : a ∈ source) (hsame : server.collation.sameKey schema.primaryKey a t) (ht : t ∈ target)
    (hmem : restrict columns t ∈ expected server schema columns options source target) :
    restrict columns t = restrict columns a := by
  rcases mem_append.mp hmem with hold | hnew
  · obtain ⟨u, _, hrow⟩ := mem_filterMap.mp hold
    unfold expectedRow at hrow
    cases hfound : counterpart server schema source u with
    | some b =>
      rw [hfound, hupdate] at hrow
      have hrestrict : restrict columns b = restrict columns t := some.inj hrow
      have hba := sameKey_trans (sameKey_of_restrict hkey hrestrict)
        (sameKey_symm hsame)
      rw [← hrestrict, eq_of_sameKey hsrc.unique (counterpart_some hfound).1 ha hba]
    | none =>
      rw [hfound] at hrow
      dsimp only at hrow
      split at hrow
      · cases hrow
      have hut : server.collation.sameKey schema.primaryKey u t :=
        sameKey_of_restrict hkey (some.inj hrow)
      exact absurd (sameKey_trans hsame (sameKey_symm hut))
        (counterpart_none hfound ha)
  split at hnew
  · obtain ⟨b, hb, hrestrict⟩ := mem_map.mp hnew
    obtain ⟨hb, hfree⟩ := mem_filter.mp hb
    exact absurd (sameKey_of_restrict hkey hrestrict) (of_decide_eq_true hfree t ht)
  cases hnew

/-- A target row that is not kept is not among the committed rows, under any key the server
takes to be equal. -/
theorem Committed.gone (h : Committed server schema columns options source all target)
    (hinsert : options.insert = false) (hdelete : options.delete = true) (ht : t ∈ target)
    (hkept : kept schema source t = false) {values : List JsValue}
    (hmem : values ∈ (synced server schema columns options source all target).map
      (restrict columns)) :
    ∀ u, restrict columns u = values → ¬ server.collation.sameKey schema.primaryKey u t := by
  rintro u rfl hsame
  obtain ⟨row, hrow, hrestrict⟩ := mem_map.mp hmem
  have hrowt := sameKey_trans (sameKey_of_restrict h.key hrestrict) hsame
  rw [h.synced_eq] at hrow
  rcases mem_append.mp hrow with hpatched | hadded
  · obtain ⟨old, hold, rfl⟩ := mem_map.mp hpatched
    obtain ⟨hmem, hstays⟩ := mem_filter.mp hold
    have hsame := sameKey_trans
      (sameKey_symm (sameKey_patch server.collation all old)) hrowt
    obtain rfl := eq_of_sameKey h.targetRows.unique hmem ht hsame
    rw [hdelete, hkept] at hstays
    exact absurd hstays (by decide)
  rw [(mem_additions.mp hadded).1] at hinsert
  cases hinsert

/-- Without the condition a sync that commits leaves other rows than promised. -/
theorem comparable_of_repaired (h : Committed server schema columns options source all target)
    (hfits : options.insert = true → NoTwins server schema source target)
    (hrepaired : ((synced server schema columns options source all target).map
      (restrict columns)).Perm (expected server schema columns options source target)) :
    (options.update = true → Tells schema columns source target) ∧
      (options.update = true ∨ options.delete = true → NoTwins server schema source target) := by
  have hstays : ∀ t ∈ target, (!options.delete || kept schema source t) = true →
      patch schema columns options all t = t →
        restrict columns t ∈ expected server schema columns options source target := by
    intro t ht hkept hpatch
    refine hrepaired.mem_iff.mp (mem_map_of_mem ?_)
    rw [h.synced_eq]
    refine mem_append_left _ (mem_map.mpr ⟨t, mem_filter.mpr ⟨ht, hkept⟩, hpatch⟩)
  constructor
  · intro hupdate a ha t ht hkeys hequal
    have hsame := sameKey_of_rowKey h.key server.collation (h.sourceRows.readable a ha)
      (h.targetRows.readable t ht) hkeys
    have hkept : kept schema source t = true := kept_iff.mpr ⟨a, ha, hkeys⟩
    exact (restrict_of_expected h.key h.sourceRows hupdate ha hsame ht
      (hstays t ht (by rw [hkept, Bool.or_true]) (h.patch_of_rowsEqual ha hkeys hequal))).symm
  intro henabled a ha t ht hsame
  by_contra hkeys
  have hinsert : options.insert = false := by
    rw [← Bool.not_eq_true]
    exact fun hinsert => hkeys (hfits hinsert a ha t ht hsame)
  have hapart : ∀ b ∈ source, rowKey schema.primaryKey b ≠ rowKey schema.primaryKey t := by
    intro b hb hbt
    have hba := sameKey_trans (sameKey_of_rowKey h.key server.collation
      (h.sourceRows.readable b hb) (h.targetRows.readable t ht) hbt)
      (sameKey_symm hsame)
    exact hkeys (eq_of_sameKey h.sourceRows.unique hb ha hba ▸ hbt)
  have hkept : kept schema source t = false := by
    rw [← Bool.not_eq_true, kept_iff]
    rintro ⟨b, hb, hbt⟩
    exact hapart b hb hbt
  cases hdelete : options.delete with
  | true =>
    -- the promised row with this key is not left
    obtain ⟨u, hu, hut⟩ : ∃ u, expectedRow server schema columns options source t =
        some (restrict columns u) ∧ server.collation.sameKey schema.primaryKey u t := by
      rw [expectedRow, counterpart_of_sameKey h.sourceRows ha hsame]
      refine ⟨_, rfl, ?_⟩
      split
      · exact hsame
      exact server.collation.sameKey_of_eq fun _ _ => rfl
    have hmem := hrepaired.mem_iff.mpr (mem_append_left _ (mem_filterMap.mpr ⟨t, ht, hu⟩))
    exact h.gone hinsert hdelete ht hkept hmem u rfl hut
  | false =>
    have hupdate : options.update = true := by
      rcases henabled with hupdate | hdelete'
      · exact hupdate
      exact absurd (hdelete'.symm.trans hdelete) (by decide)
    have hpatch : patch schema columns options all t = t := by
      refine patch_of_apart fun b hb hbt => ?_
      obtain ⟨row, hrow, rfl⟩ := h.mem_all.mp hb
      exact hapart row hrow ((rowKey_select h.key).symm.trans hbt)
    have heq := restrict_of_expected h.key h.sourceRows hupdate ha hsame ht
      (hstays t ht (by rw [hdelete]; rfl) hpatch)
    exact hkeys (rowKey_of_eq fun column hcol =>
      (restrict_eq_iff.mp heq column (h.key hcol)).symm)

/-- Numbers by value, texts of one letter without regard to case. -/
def weight : JsValue → ℚ
  | .number value => value
  | .text value => ((value.toList.head?.map Char.toLower).map Char.toNat).getD 0
  | _ => 0

def caseless : Server where
  collation :=
    { le := fun _ x y => weight x ≤ weight y
      total := fun _ x y => by simpa using le_total (weight x) (weight y)
      trans := fun _ x y z hxy hyz => by
        simp only [decide_eq_true_eq] at *
        exact le_trans hxy hyz }
  fill := fun _ _ => .null

/-- A key and a JSON document. -/
def documents : Schema where
  primaryKey := ["id"]
  kind := fun column => if column = "id" then .scalar else .json
  nonempty := by decide
  keyKind := by decide

def documentRow (id doc : JsValue) : Row :=
  fun column => if column = "id" then id else doc

/-- A table of one document. -/
def oneDocument (id doc : JsValue) (hid : Kind.scalar.admits id = true) (hpresent : id.isNull = false)
    (hdoc : Kind.json.admits doc = true) : Table caseless.collation documents ["id", "doc"] where
  rows := [documentRow id doc]
  sound :=
    { unique := pairwise_singleton _ _
      present := by simpa [documents, documentRow] using hpresent
      typed := by simpa [documents, documentRow] using ⟨hid, hdoc⟩ }

/-- A document that is an array, and in the target the string of its text. -/
def arrayDocument : Table caseless.collation documents ["id", "doc"] :=
  oneDocument (.number 1) (.object "[1]") rfl rfl rfl

def stringDocument : Table caseless.collation documents ["id", "doc"] :=
  oneDocument (.number 1) (.text "[1]") rfl rfl rfl

def lowerDocument : Table caseless.collation documents ["id", "doc"] :=
  oneDocument (.text "a") .null rfl rfl rfl

def upperDocument : Table caseless.collation documents ["id", "doc"] :=
  oneDocument (.text "A") .null rfl rfl rfl

end ImApp.DatabaseSync
