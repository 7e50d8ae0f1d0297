import ImApp.PlatformMigration.Rekey

/-!
What a migration gives for every content of the source. The export and the normalised
copy hold the rows of the source, once each. They exist exactly where SQLite takes the
rows, the references hold as SQLite compares them and every listed value is a ciphertext
of the source's key. The target is replaced as a whole, but for a SQLite target whose
log is removed before its file is renamed.
-/

namespace ImApp.PlatformMigration

open JsonText OffsetPaging List

section Lossless

variable {MasterKey Nonce : Type} (r : Runtime MasterKey Nonce) (schema : Schema)

/-- A content of the platform, as the engine of the source allows it, and a server that
answers the queries of the export. -/
structure ValidSource (source : Source) : Prop where
  typed : ∀ t ∈ schema.tables, ∀ row ∈ source.content t.name, TypedRow t row
  accepted : ∀ t ∈ schema.tables, Accepts r source.dialect t (source.content t.name)
  keyed : source.dialect = .mysql → ∀ t ∈ schema.tables, ∀ row ∈ source.content t.name,
    ∀ c ∈ t.primaryKey, row c ≠ .null
  answers : source.dialect = .mysql → ∀ t ∈ schema.tables,
    Answers (primaryOrder r t) (source.content t.name) SNAPSHOT_PAGE_SIZE (source.select t)

variable {r schema}

theorem keyImage_primary {columns : List String} {row : Row} (h : ∀ c ∈ columns, row c ≠ .null) :
    keyImage r (columns.map fun c => (c, Collation.unicode)) row =
      some (columns.map fun c => (image r .unicode (row c)).getD []) := by
  induction columns with
  | nil => rfl
  | cons c rest ih =>
    have hrest := ih fun other hother => h other (mem_cons_of_mem _ hother)
    have hfirst : ∃ x, image r .unicode (row c) = some x := by
      cases hvalue : row c with
      | null => exact absurd hvalue (h c mem_cons_self)
      | number x | text t => exact ⟨_, rfl⟩
    obtain ⟨x, hx⟩ := hfirst
    unfold keyImage at hrest ⊢
    rw [map_cons, mapM_cons, hx, hrest]
    simp [hx]

variable {t : Table}

theorem primaryOrder_separates {source : Source} (hsrc : ValidSource r schema source)
    (hmysql : source.dialect = .mysql) (ht : t ∈ schema.tables) :
    ∀ a ∈ source.content t.name, ∀ b ∈ source.content t.name,
      primaryOrder r t a b → primaryOrder r t b a → a = b := by
  intro a ha b hb hab hba
  unfold primaryOrder at hab hba
  have hsame := le_antisymm hab hba
  have hkeya := keyImage_primary (r := r) (hsrc.keyed hmysql t ht a ha)
  have hkeyb := keyImage_primary (r := r) (hsrc.keyed hmysql t ht b hb)
  rw [← hsame, ← hkeya] at hkeyb
  by_contra hne
  have haccepts := hsrc.accepted t ht
  rw [hmysql] at haccepts
  have hfree := haccepts.free _ mem_cons_self
  have hsymm : Std.Symm fun x y : Row =>
      clash r (t.primaryKey.map fun c => (c, Collation.unicode)) x y = false :=
    ⟨fun x y h => by rwa [clash_comm]⟩
  have hclear := hfree.forall ha hb hne
  simp [clash, hkeyb, hkeya] at hclear

/-- The pages of a table, whatever the server's arrangement, are one pass over its rows. -/
theorem exportTable_eq {source : Source} (hsrc : ValidSource r schema source)
    (hmysql : source.dialect = .mysql) (ht : t ∈ schema.tables) :
    ∃ arranged : List Row, arranged.Perm (source.content t.name) ∧
      exportTable r source t = arranged.foldlM
        (fun rows row => insertRow r .sqlite t rows (bindRow .mysql t row)) [] := by
  let keep := fun rows row => insertRow r .sqlite t rows (bindRow .mysql t row)
  have hread : ∃ arranged : List Row, arranged.Perm (source.content t.name) ∧
      readAll (source.select t) SNAPSHOT_PAGE_SIZE keep ((source.content t.name).length + 1) 0 [] =
        some (arranged.foldlM keep []) :=
    (hsrc.answers hmysql t ht).read_whole (by decide) (primaryOrder_separates hsrc hmysql ht) []
  obtain ⟨arranged, hperm, hread⟩ := hread
  refine ⟨arranged, hperm, ?_⟩
  unfold exportTable
  rw [hread]
  rfl

theorem exportTable_some {source : Source} (hsrc : ValidSource r schema source)
    (hmysql : source.dialect = .mysql) (ht : t ∈ schema.tables) :
    (∀ rows, exportTable r source t = some rows → rows.Perm (source.content t.name)) ∧
      ((∃ rows, exportTable r source t = some rows) ↔ Accepts r .sqlite t (source.content t.name)) := by
  obtain ⟨arranged, hperm, hexport⟩ := exportTable_eq hsrc hmysql ht
  have htyped : ∀ row ∈ arranged, TypedRow t row := by
    intro row hrow
    exact hsrc.typed t ht row (hperm.mem_iff.mp hrow)
  have hinsert : ∀ out, arranged.foldlM
      (fun rows row => insertRow r .sqlite t rows (bindRow .mysql t row)) [] = some out ↔
        out = arranged ∧ Accepts r .sqlite t arranged :=
    fun out => insertRows_eq r (schema.columns t ht) (Or.inl rfl) htyped
  rw [hexport, ← Accepts.perm r hperm]
  constructor
  · intro rows hrows
    obtain ⟨rfl, -⟩ := (hinsert rows).mp hrows
    exact hperm
  constructor
  · rintro ⟨rows, hrows⟩
    exact ((hinsert rows).mp hrows).2
  intro haccepts
  exact ⟨arranged, (hinsert arranged).mpr ⟨rfl, haccepts⟩⟩

theorem export_some {source : Source} (hsrc : ValidSource r schema source) {exported : Content}
    (h : exportPortableSnapshot r schema.tables source = some exported) :
    ∀ t ∈ schema.tables, (exported t.name).Perm (source.content t.name) := by
  intro t ht
  unfold exportPortableSnapshot at h
  split at h
  · cases h
    exact List.Perm.refl _
  rename_i hmysql
  have hrows := ((fillTables_some schema.names).mp h).1 t ht
  exact (exportTable_some hsrc hmysql ht).1 _ hrows

theorem export_isSome {source : Source} (hsrc : ValidSource r schema source) :
    (∃ exported, exportPortableSnapshot r schema.tables source = some exported) ↔
      ∀ t ∈ schema.tables, Accepts r .sqlite t (source.content t.name) := by
  unfold exportPortableSnapshot
  split
  · rename_i hsqlite
    have hacc := hsrc.accepted
    rw [hsqlite] at hacc
    exact iff_of_true ⟨source.content, rfl⟩ hacc
  rename_i hmysql
  rw [fillTables_isSome]
  exact forall₂_congr fun t ht => (exportTable_some hsrc hmysql ht).2

variable (r schema) in
/-- What the change of the key asks of a snapshot. -/
structure Movable (sourceKey : MasterKey) (content : Content) : Prop where
  accepted : ∀ t ∈ schema.tables, Accepts r .sqlite t (content t.name)
  references : foreignKeysHold schema.tables content = true
  secrets : ∀ t ∈ schema.tables, ∀ column, (t.name, column) ∈ ENCRYPTED_COLUMNS →
    ∀ row ∈ content t.name, Decryptable r sourceKey (row column)

variable {x y : Content}

theorem Similar.of_perm (h : ∀ t ∈ schema.tables, (x t.name).Perm (y t.name)) :
    Similar schema x y := by
  intro t ht
  constructor
  · intro a ha
    exact ⟨a, (h t ht).mem_iff.mp ha, fun _ _ => rfl⟩
  intro b hb
  exact ⟨b, (h t ht).mem_iff.mpr hb, fun _ _ => rfl⟩

variable {sourceKey : MasterKey}

theorem Movable.of_perm
    (h : ∀ t ∈ schema.tables, (x t.name).Perm (y t.name)) (hx : Movable r schema sourceKey x) :
    Movable r schema sourceKey y := by
  constructor
  · intro t ht
    exact (Accepts.perm r (h t ht)).mp (hx.accepted t ht)
  · exact (Similar.of_perm h).foreignKeys hx.references
  intro t ht column hcol row hrow
  exact hx.secrets t ht column hcol row ((h t ht).mem_iff.mpr hrow)

theorem Movable.perm (h : ∀ t ∈ schema.tables, (x t.name).Perm (y t.name)) :
    Movable r schema sourceKey x ↔ Movable r schema sourceKey y :=
  ⟨Movable.of_perm h, Movable.of_perm fun t ht => (h t ht).symm⟩

section Snapshot

variable {snapshot : Content} (htyped : ∀ t ∈ schema.tables, ∀ row ∈ snapshot t.name, TypedRow t row)

include htyped in
theorem copyTable_some {dialect : Dialect} {t : Table} (ht : t ∈ schema.tables) {rows : List Row} :
    copyTable r dialect snapshot t = some rows ↔
      rows = snapshot t.name ∧ Accepts r dialect t (snapshot t.name) :=
  insertRows_eq r (schema.columns t ht) (Or.inr rfl) (htyped t ht)

include htyped in
theorem copyTables_some {dialect : Dialect} {content out : Content}
    (h : fillTables (copyTable r dialect snapshot) schema.tables content = some out) :
    ∀ t ∈ schema.tables, out t.name = snapshot t.name ∧ Accepts r dialect t (snapshot t.name) := by
  intro t ht
  exact (copyTable_some htyped ht).mp (((fillTables_some schema.names).mp h).1 t ht)

include htyped in
theorem copyTables_isSome {dialect : Dialect} {content : Content} :
    (∃ out, fillTables (copyTable r dialect snapshot) schema.tables content = some out) ↔
      ∀ t ∈ schema.tables, Accepts r dialect t (snapshot t.name) := by
  rw [fillTables_isSome]
  apply forall₂_congr
  intro t ht
  constructor
  · rintro ⟨rows, hrows⟩
    exact ((copyTable_some htyped ht).mp hrows).2
  intro haccepts
  exact ⟨_, (copyTable_some htyped ht).mpr ⟨rfl, haccepts⟩⟩

include htyped in
theorem normalize_some {normalized : Content}
    (h : normalizePortableSnapshot r schema.tables snapshot = some normalized) :
    (∀ t ∈ schema.tables, normalized t.name = snapshot t.name) ∧
      ∀ name, (∀ t ∈ schema.tables, t.name ≠ name) → normalized name = [] := by
  unfold normalizePortableSnapshot at h
  split at h
  · cases h
  rename_i copied hcopied
  split at h
  · cases h
    exact ⟨fun t ht => (copyTables_some htyped hcopied t ht).1,
      ((fillTables_some schema.names).mp hcopied).2⟩
  cases h

include htyped in
theorem normalize_isSome :
    (∃ normalized, normalizePortableSnapshot r schema.tables snapshot = some normalized) ↔
      (∀ t ∈ schema.tables, Accepts r .sqlite t (snapshot t.name)) ∧
        foreignKeysHold schema.tables snapshot = true := by
  have hcopies : (∃ copied, fillTables (copyTable r .sqlite snapshot) schema.tables (fun _ => []) =
      some copied) ↔ ∀ t ∈ schema.tables, Accepts r .sqlite t (snapshot t.name) :=
    copyTables_isSome htyped
  rw [← hcopies]
  unfold normalizePortableSnapshot
  cases hcopied : fillTables (copyTable r .sqlite snapshot) schema.tables fun _ => [] with
  | none => simp
  | some copied =>
    have hsame : Similar schema copied snapshot := by
      apply Similar.of_perm
      intro t ht
      rw [(copyTables_some htyped hcopied t ht).1]
    have hkeys : foreignKeysHold schema.tables copied = foreignKeysHold schema.tables snapshot :=
      Bool.eq_iff_iff.mpr ⟨hsame.foreignKeys, hsame.symm.foreignKeys⟩
    simp [hkeys]

include htyped in
/-- The snapshot for the target: the same rows, with the same secrets under its key. -/
theorem rekeyPortable_some {sourceKey targetKey : MasterKey} {nonces : Nonces Nonce} {out : Content}
    (h : rekeyPortableSnapshot r schema.tables sourceKey targetKey nonces snapshot = some out) :
    ∀ t ∈ schema.tables, List.Forall₂ (RekeyedRow r sourceKey targetKey ENCRYPTED_COLUMNS t.name)
      (snapshot t.name) (out t.name) := by
  intro t ht
  unfold rekeyPortableSnapshot at h
  split at h
  · cases h
  rename_i normalized hnormalized
  split at h
  · cases h
  rename_i rekeyed hrekeyed
  split at h
  · cases h
    rw [← (normalize_some htyped hnormalized).1 t ht]
    exact rekeyColumns_some (by decide) hrekeyed t.name
  cases h

include htyped in
theorem rekeyPortable_isSome {sourceKey targetKey : MasterKey} {nonces : Nonces Nonce} :
    (∃ out, rekeyPortableSnapshot r schema.tables sourceKey targetKey nonces snapshot = some out) ↔
      Movable r schema sourceKey snapshot := by
  have hnormal := normalize_isSome (r := r) htyped
  unfold rekeyPortableSnapshot
  cases hnormalized : normalizePortableSnapshot r schema.tables snapshot with
  | none =>
    constructor
    · rintro ⟨out, hout⟩
      cases hout
    intro hmovable
    obtain ⟨normalized, hsome⟩ := hnormal.mpr ⟨hmovable.accepted, hmovable.references⟩
    rw [hnormalized] at hsome
    cases hsome
  | some normalized =>
    obtain ⟨hacc, hreferences⟩ := hnormal.mp ⟨normalized, hnormalized⟩
    obtain ⟨hrows, hnothing⟩ := normalize_some htyped hnormalized
    -- outside the tables of the schema the copy has no row to decrypt
    have hsecrets : (∃ rekeyed, rekeyColumns r sourceKey targetKey nonces ENCRYPTED_COLUMNS normalized =
        some rekeyed) ↔ ∀ t ∈ schema.tables, ∀ column, (t.name, column) ∈ ENCRYPTED_COLUMNS →
          ∀ row ∈ snapshot t.name, Decryptable r sourceKey (row column) := by
      rw [rekeyColumns_isSome (by decide)]
      constructor
      · intro hall t ht column hcol row hrow
        rw [← hrows t ht] at hrow
        exact hall (t.name, column) hcol row hrow
      intro hall place hplace row hrow
      by_cases hknown : ∃ t ∈ schema.tables, t.name = place.1
      · obtain ⟨t, ht, hname⟩ := hknown
        rw [← hname, hrows t ht] at hrow
        exact hall t ht place.2 (hname ▸ hplace) row hrow
      rw [hnothing place.1 fun t ht hname => hknown ⟨t, ht, hname⟩] at hrow
      cases hrow
    constructor
    · rintro ⟨out, hout⟩
      refine ⟨hacc, hreferences, hsecrets.mp ?_⟩
      cases hrekeyed : rekeyColumns r sourceKey targetKey nonces ENCRYPTED_COLUMNS normalized with
      | none =>
        simp only [hrekeyed] at hout
        cases hout
      | some rekeyed => exact ⟨rekeyed, rfl⟩
    intro hmovable
    obtain ⟨rekeyed, hrekeyed⟩ := hsecrets.mpr hmovable.secrets
    have hsimilar : Similar schema snapshot rekeyed := by
      intro t ht
      have hpairs := rekeyColumns_some (by decide) hrekeyed t.name
      rw [hrows t ht] at hpairs
      constructor
      · intro a ha
        obtain ⟨b, hb, hrow⟩ := PairedLists.left hpairs ha
        exact ⟨b, hb, hrow.agree⟩
      intro b hb
      obtain ⟨a, ha, hrow⟩ := PairedLists.right hpairs hb
      exact ⟨a, ha, hrow.agree⟩
    refine ⟨rekeyed, ?_⟩
    simp only [hrekeyed]
    exact if_pos (hsimilar.foreignKeys hreferences)

end Snapshot

variable {fails : ℕ → Bool}

theorem runCommands_some {n : ℕ} {commands : List Command} {db out : Content}
    (h : runCommands r fails n commands db = some out) :
    commands.foldlM (fun db c => runCommand r c db) db = some out := by
  induction commands generalizing n db with
  | nil => exact h
  | cons c rest ih =>
    unfold runCommands at h
    split at h
    · cases h
    split at h
    · cases h
    rename_i after hafter
    rw [foldlM_cons, hafter]
    exact ih h

theorem runCommands_faultless (hfails : ∀ n, fails n = false) (n : ℕ)
    (commands : List Command) (db : Content) :
    runCommands r fails n commands db = commands.foldlM (fun db c => runCommand r c db) db := by
  induction commands generalizing n db with
  | nil => rfl
  | cons c rest ih =>
    rw [runCommands, hfails n, foldlM_cons]
    cases runCommand r c db with
    | none => rfl
    | some after => exact ih (n + 1) after

/-- A database after the deletions. -/
def cleared : List Table → Content → Content
  | [], db => db
  | t :: rest, db => cleared rest (Function.update db t.name [])

theorem deleteAll_eq (tables : List Table) (db : Content) :
    (tables.map Command.deleteFrom).foldlM (fun db c => runCommand r c db) db =
      some (cleared tables db) := by
  induction tables generalizing db with
  | nil => rfl
  | cons t rest ih =>
    rw [map_cons, foldlM_cons, cleared, ← ih]
    rfl

theorem cleared_kept (tables : List Table) {db : Content} {name : String} (h : db name = []) :
    cleared tables db name = [] := by
  induction tables generalizing db with
  | nil => exact h
  | cons t rest ih =>
    apply ih
    by_cases hname : name = t.name
    · rw [hname, Function.update_self]
    rw [Function.update_of_ne hname, h]

theorem cleared_eq {tables : List Table} (ht : t ∈ tables) (db : Content) :
    cleared tables db t.name = [] := by
  induction tables generalizing db with
  | nil => cases ht
  | cons u rest ih =>
    rcases mem_cons.mp ht with rfl | ht
    · exact cleared_kept rest (Function.update_self ..)
    exact ih ht _

theorem insertAll_eq (t : Table) (rows : List Row) (db : Content) :
    (rows.map fun row => Command.insertInto t (bindRow .sqlite t row)).foldlM
        (fun db c => runCommand r c db) db =
      (rows.foldlM (fun kept row => insertRow r .mysql t kept (bindRow .sqlite t row)) (db t.name)).map
        fun rows => Function.update db t.name rows := by
  induction rows generalizing db with
  | nil => simp
  | cons row rest ih =>
    rw [map_cons, foldlM_cons, foldlM_cons, runCommand]
    cases insertRow r .mysql t (db t.name) (bindRow .sqlite t row) with
    | none => rfl
    | some rows =>
      change (rest.map _).foldlM _ (Function.update db t.name rows) = _
      rw [ih, Function.update_self]
      simp

/-- The inserts of the transaction fill the cleared tables one after the other. -/
theorem insertTables_eq (snapshot : Content) {tables : List Table}
    (hnames : tables.Pairwise fun a b => a.name ≠ b.name) (db : Content) (hempty : ∀ t ∈ tables, db t.name = []) :
    (tables.flatMap (insertCommands snapshot)).foldlM (fun db c => runCommand r c db) db =
      fillTables (copyTable r .mysql snapshot) tables db := by
  induction tables generalizing db with
  | nil => rfl
  | cons t rest ih =>
    obtain ⟨hfresh, hrest⟩ := pairwise_cons.mp hnames
    rw [flatMap_cons, foldlM_append, insertCommands, insertAll_eq,
      hempty t mem_cons_self, fillTables, copyTable]
    cases (snapshot t.name).foldlM (fun kept row => insertRow r .mysql t kept (bindRow .sqlite t row)) [] with
    | none => rfl
    | some rows =>
      apply ih hrest
      intro u hu
      change Function.update db t.name rows u.name = []
      rw [Function.update_of_ne (hfresh u hu).symm]
      exact hempty u (mem_cons_of_mem _ hu)

theorem replaceCommands_eq (snapshot target : Content) :
    (replaceCommands schema.tables snapshot).foldlM (fun db c => runCommand r c db) target =
      fillTables (copyTable r .mysql snapshot) schema.tables (cleared schema.tables target) := by
  have hinserts := insertTables_eq (r := r) snapshot schema.names _ fun t ht => cleared_eq ht target
  rw [← hinserts]
  have hchecks : ∀ on db, runCommand r (.setForeignKeyChecks on) db = some db := fun _ _ => rfl
  simp only [replaceCommands, foldlM_append, foldlM_cons, foldlM_nil, hchecks,
    Option.pure_def, Option.bind_eq_bind, Option.bind_some, deleteAll_eq, Option.bind_fun_some]

theorem replaceMysql_some {snapshot target : Content}
    (htyped : ∀ t ∈ schema.tables, ∀ row ∈ snapshot t.name, TypedRow t row)
    (h : (replaceMysqlFromPortableSnapshot r schema.tables fails snapshot target).done = true) :
    ∀ t ∈ schema.tables, (replaceMysqlFromPortableSnapshot r schema.tables fails snapshot target).database
      t.name = snapshot t.name ∧ Accepts r .mysql t (snapshot t.name) := by
  unfold replaceMysqlFromPortableSnapshot at h ⊢
  cases hrun : runCommands r fails 0 (replaceCommands schema.tables snapshot) target with
  | none =>
    simp only [hrun] at h
    cases h
  | some db =>
    simp only [hrun] at h ⊢
    split at h
    · cases h
    rename_i hcommit
    rw [if_neg hcommit]
    have hfill := runCommands_some hrun
    rw [replaceCommands_eq] at hfill
    exact copyTables_some htyped hfill

theorem replaceMysql_done (hfails : ∀ n, fails n = false) {snapshot : Content}
    (target : Content) (htyped : ∀ t ∈ schema.tables, ∀ row ∈ snapshot t.name, TypedRow t row)
    (haccepts : ∀ t ∈ schema.tables, Accepts r .mysql t (snapshot t.name)) :
    (replaceMysqlFromPortableSnapshot r schema.tables fails snapshot target).done = true := by
  obtain ⟨db, hdb⟩ : ∃ db, fillTables (copyTable r .mysql snapshot) schema.tables
      (cleared schema.tables target) = some db := (copyTables_isSome htyped).mpr haccepts
  have hrun : runCommands r fails 0 (replaceCommands schema.tables snapshot) target = some db := by
    rw [runCommands_faultless hfails, replaceCommands_eq, hdb]
  unfold replaceMysqlFromPortableSnapshot
  simp [hrun, hfails]

theorem replaceMysql_atomic {snapshot target : Content}
    (h : (replaceMysqlFromPortableSnapshot r schema.tables fails snapshot target).done = false) :
    (replaceMysqlFromPortableSnapshot r schema.tables fails snapshot target).database = target := by
  unfold replaceMysqlFromPortableSnapshot at h ⊢
  cases hrun : runCommands r fails 0 (replaceCommands schema.tables snapshot) target with
  | none => simp only [hrun]
  | some db =>
    simp only [hrun] at h ⊢
    split at h
    · rename_i hcommit
      rw [if_pos hcommit]
    cases h

/-- Where a restore stops. Before the third step nothing has happened; after the removal
of the log only the main file is left. -/
theorem applyPendingRestore_cases (stopsAt : Option ℕ) (snapshot : Content) (files : DatabaseFiles) :
    applyPendingRestore stopsAt snapshot files = match stopsAt with
      | some 0 | some 1 | some 2 => ⟨false, files.opened⟩
      | some 3 | some 4 => ⟨false, files.main⟩
      | _ => ⟨true, snapshot⟩ := by
  match stopsAt with
  | none => rfl
  | some 0 => rfl
  | some 1 => rfl
  | some 2 => rfl
  | some 3 => rfl
  | some 4 => rfl
  | some (n + 5) => simp [applyPendingRestore, restoreSteps, DatabaseFiles.opened]

/-- No request to the target fails and no restore stops. -/
def Target.Faultless : Target → Prop
  | .sqlite _ stopsAt => stopsAt = none
  | .mysql _ fails => ∀ n, fails n = false

/-- A restore that stops once the log is removed still finds what the log held. -/
def Target.KeepsLog : Target → Prop
  | .sqlite files stopsAt => stopsAt = some 3 ∨ stopsAt = some 4 → files.opened = files.main
  | .mysql _ _ => True

variable (r schema) in
/-- The contents that reach the target: movable, and of a form that MySQL takes if the
target is one. -/
structure Portable (source : Source) (sourceKey : MasterKey) (target : Target) : Prop where
  movable : Movable r schema sourceKey source.content
  fits : ∀ content fails, target = .mysql content fails →
    ∀ t ∈ schema.tables, Accepts r .mysql t (source.content t.name)

variable (r schema) in
/-- The rows of the source, each once, with the same secrets under the other key. -/
def Carries (sourceKey targetKey : MasterKey) (source target : Content) : Prop :=
  ∀ t ∈ schema.tables, ∃ rows : List Row, rows.Perm (source t.name) ∧
    List.Forall₂ (RekeyedRow r sourceKey targetKey ENCRYPTED_COLUMNS t.name) rows (target t.name)

variable (r schema) in
/-- A migration that loses nothing: it gets through where nothing fails, leaves exactly
the source's rows when it got through and the target's own when it did not. -/
structure Lossless (source : Source) (sourceKey targetKey : MasterKey) (nonces : Nonces Nonce)
    (target : Target) : Prop where
  complete : target.Faultless →
    (migrate r schema.tables source sourceKey targetKey nonces target).done = true
  exact : (migrate r schema.tables source sourceKey targetKey nonces target).done = true →
    Carries r schema sourceKey targetKey source.content
      (migrate r schema.tables source sourceKey targetKey nonces target).database
  atomic : (migrate r schema.tables source sourceKey targetKey nonces target).done = false →
    (migrate r schema.tables source sourceKey targetKey nonces target).database = target.database

variable (r schema) in
/-- The snapshot that replaces the target. -/
def targetSnapshot (source : Source) (sourceKey targetKey : MasterKey) (nonces : Nonces Nonce) :
    Option Content :=
  (exportPortableSnapshot r schema.tables source).bind
    (rekeyPortableSnapshot r schema.tables sourceKey targetKey nonces)

theorem migrate_none {source : Source} {targetKey : MasterKey} {nonces : Nonces Nonce}
    {target : Target} (h : targetSnapshot r schema source sourceKey targetKey nonces = none) :
    migrate r schema.tables source sourceKey targetKey nonces target = ⟨false, target.database⟩ := by
  unfold targetSnapshot at h
  unfold migrate
  cases hexported : exportPortableSnapshot r schema.tables source with
  | none => rfl
  | some exported =>
    rw [hexported, Option.bind_some] at h
    simp only [h]

theorem migrate_some {source : Source} {targetKey : MasterKey} {nonces : Nonces Nonce}
    {target : Target} {snapshot : Content}
    (h : targetSnapshot r schema source sourceKey targetKey nonces = some snapshot) :
    migrate r schema.tables source sourceKey targetKey nonces target =
      replaceDatabase r schema.tables snapshot target := by
  obtain ⟨exported, hexported, hrekeyed⟩ := Option.bind_eq_some_iff.mp h
  unfold migrate
  simp only [hexported, hrekeyed]

section Valid

variable {source : Source} (hsrc : ValidSource r schema source)

include hsrc in
theorem exported_typed {exported : Content}
    (h : exportPortableSnapshot r schema.tables source = some exported) :
    ∀ t ∈ schema.tables, ∀ row ∈ exported t.name, TypedRow t row := by
  intro t ht row hrow
  exact hsrc.typed t ht row ((export_some hsrc h t ht).mem_iff.mp hrow)

variable {sourceKey targetKey : MasterKey}

include hsrc in
theorem targetSnapshot_isSome {nonces : Nonces Nonce} :
    (∃ snapshot, targetSnapshot r schema source sourceKey targetKey nonces = some snapshot) ↔
      Movable r schema sourceKey source.content := by
  constructor
  · rintro ⟨snapshot, h⟩
    obtain ⟨exported, hexported, hrekeyed⟩ := Option.bind_eq_some_iff.mp h
    have hmovable := (rekeyPortable_isSome (exported_typed hsrc hexported)).mp ⟨snapshot, hrekeyed⟩
    exact (Movable.perm (export_some hsrc hexported)).mp hmovable
  intro hmovable
  obtain ⟨exported, hexported⟩ := (export_isSome hsrc).mpr hmovable.accepted
  have hmoved := (Movable.perm (export_some hsrc hexported)).mpr hmovable
  obtain ⟨snapshot, hrekeyed⟩ : ∃ snapshot, rekeyPortableSnapshot r schema.tables sourceKey targetKey
      nonces exported = some snapshot :=
    (rekeyPortable_isSome (exported_typed hsrc hexported)).mpr hmoved
  exact ⟨snapshot, Option.bind_eq_some_iff.mpr ⟨exported, hexported, hrekeyed⟩⟩

include hsrc in
theorem targetSnapshot_carries {nonces : Nonces Nonce}
    {snapshot : Content} (h : targetSnapshot r schema source sourceKey targetKey nonces = some snapshot) :
    Carries r schema sourceKey targetKey source.content snapshot := by
  obtain ⟨exported, hexported, hrekeyed⟩ := Option.bind_eq_some_iff.mp h
  intro t ht
  exact ⟨exported t.name, export_some hsrc hexported t ht,
    rekeyPortable_some (exported_typed hsrc hexported) hrekeyed t ht⟩

include hsrc in
theorem Carries.typed {snapshot : Content}
    (h : Carries r schema sourceKey targetKey source.content snapshot) :
    ∀ t ∈ schema.tables, ∀ row ∈ snapshot t.name, TypedRow t row := by
  intro t ht row hrow
  obtain ⟨rows, hperm, hpairs⟩ := h t ht
  obtain ⟨before, hpre, hrekeyed⟩ := PairedLists.right hpairs hrow
  exact hrekeyed.typed ht (hsrc.typed t ht before (hperm.mem_iff.mp hpre))

theorem Carries.accepts {snapshot : Content}
    (h : Carries r schema sourceKey targetKey source.content snapshot) {dialect : Dialect} {t : Table}
    (ht : t ∈ schema.tables) :
    Accepts r dialect t (source.content t.name) ↔ Accepts r dialect t (snapshot t.name) := by
  obtain ⟨rows, hperm, hpairs⟩ := h t ht
  rw [← Accepts.perm r hperm]
  exact accepts_rekeyed ht hpairs

include hsrc in
/-- Every stored secret is in a listed column, and a migration loses nothing exactly when
its content reaches the target and no stopped restore drops a log with content. -/
theorem migration_lossless (sourceKey targetKey : MasterKey) (nonces : Nonces Nonce) (target : Target) :
    (∀ site : EncryptSite, site.column ∈ ENCRYPTED_COLUMNS) ∧
      (Lossless r schema source sourceKey targetKey nonces target ↔
        (target.Faultless → Portable r schema source sourceKey target) ∧
          (Portable r schema source sourceKey target → target.KeepsLog)) := by
  refine ⟨fun site => by cases site <;> decide, ?_⟩
  have hmovable : (∃ snapshot, targetSnapshot r schema source sourceKey targetKey nonces =
      some snapshot) ↔ Movable r schema sourceKey source.content := targetSnapshot_isSome hsrc
  constructor
  · intro hlossless
    constructor
    · intro hfaultless
      have hdone := hlossless.complete hfaultless
      cases hsnap : targetSnapshot r schema source sourceKey targetKey nonces with
      | none =>
        rw [migrate_none hsnap] at hdone
        cases hdone
      | some snapshot =>
        have hcarries := targetSnapshot_carries hsrc hsnap
        refine ⟨hmovable.mp ⟨snapshot, hsnap⟩, ?_⟩
        rintro content fails rfl t ht
        rw [migrate_some hsnap] at hdone
        have hrows := (replaceMysql_some (hcarries.typed hsrc) hdone t ht).2
        exact (hcarries.accepts ht).mpr hrows
    intro hportable
    obtain ⟨snapshot, hsnap⟩ := hmovable.mpr hportable.movable
    have hatomic := hlossless.atomic
    rw [migrate_some hsnap] at hatomic
    cases target with
    | mysql content fails => exact trivial
    | sqlite files stopsAt =>
      rintro (rfl | rfl)
      · exact (hatomic rfl).symm
      exact (hatomic rfl).symm
  rintro ⟨hcompl, hkeeps⟩
  cases hsnap : targetSnapshot r schema source sourceKey targetKey nonces with
  | none =>
    have hnone : migrate r schema.tables source sourceKey targetKey nonces target =
        ⟨false, target.database⟩ := migrate_none hsnap
    constructor
    · intro hfaultless
      obtain ⟨snapshot, hsome⟩ := hmovable.mpr (hcompl hfaultless).movable
      rw [hsnap] at hsome
      cases hsome
    · intro hdone
      rw [hnone] at hdone
      cases hdone
    intro _
    rw [hnone]
  | some snapshot =>
    have hcarries := targetSnapshot_carries hsrc hsnap
    have hsome : migrate r schema.tables source sourceKey targetKey nonces target =
        replaceDatabase r schema.tables snapshot target := migrate_some hsnap
    cases target with
    | mysql content fails =>
      constructor
      · intro hfaultless
        rw [hsome]
        apply replaceMysql_done hfaultless content (hcarries.typed hsrc)
        intro t ht
        exact (hcarries.accepts ht).mp ((hcompl hfaultless).fits content fails rfl t ht)
      · intro hdone t ht
        rw [hsome] at hdone ⊢
        obtain ⟨rows, hperm, hpairs⟩ := hcarries t ht
        refine ⟨rows, hperm, ?_⟩
        have hsame := (replaceMysql_some (hcarries.typed hsrc) hdone t ht).1
        rwa [replaceDatabase, hsame]
      intro hfailed
      rw [hsome] at hfailed ⊢
      exact replaceMysql_atomic hfailed
    | sqlite files stopsAt =>
      have hportable : Portable r schema source sourceKey (.sqlite files stopsAt) := by
        refine ⟨hmovable.mp ⟨snapshot, hsnap⟩, ?_⟩
        intro content fails h
        cases h
      have hlog := hkeeps hportable
      have hcases := applyPendingRestore_cases stopsAt snapshot files
      constructor
      · intro hfaultless
        cases hfaultless
        rw [hsome]
        rfl
      · intro hdone
        rw [hsome, replaceDatabase, hcases] at hdone ⊢
        split at hdone
        · cases hdone
        · cases hdone
        · cases hdone
        · cases hdone
        · cases hdone
        exact hcarries
      intro hfailed
      rw [hsome, replaceDatabase, hcases] at hfailed ⊢
      split at hfailed
      · rfl
      · rfl
      · rfl
      · exact (hlog (Or.inl rfl)).symm
      · exact (hlog (Or.inr rfl)).symm
      cases hfailed

end Valid

end Lossless

def adminUsers : Table where
  name := "admin_users"
  columns := [⟨"id", .varchar 64⟩]
  primaryKey := ["id"]
  sqliteKeys := []
  mysqlKeys := []
  references := []
  check := fun _ => true

def databaseConnections : Table where
  name := "database_connections"
  columns := [⟨"id", .varchar 64⟩, ⟨"credential_ciphertext", .longtext⟩]
  primaryKey := ["id"]
  sqliteKeys := []
  mysqlKeys := []
  references := []
  check := fun _ => true

def savedQueryKey : List String := ["owner_user_id", "connection_id", "database_name", "name"]

def databaseSavedQueries : Table where
  name := "database_saved_queries"
  columns := [⟨"id", .varchar 64⟩, ⟨"owner_user_id", .varchar 64⟩, ⟨"connection_id", .varchar 64⟩,
    ⟨"database_name", .varchar 255⟩, ⟨"name", .varchar 255⟩, ⟨"sql_text", .longtext⟩,
    ⟨"created_at", .varchar 32⟩, ⟨"updated_at", .varchar 32⟩, ⟨"accessed_at", .varchar 32⟩]
  primaryKey := ["id"]
  sqliteKeys := [savedQueryKey.map fun c => (c, .binary)]
  mysqlKeys := [savedQueryKey.map fun c => (c, .unicode)]
  references := [("owner_user_id", "admin_users", "id"), ("connection_id", "database_connections", "id")]
  check := fun _ => true

def savedQueryTables : List Table := [adminUsers, databaseConnections, databaseSavedQueries]

theorem savedQueryTables_all {P : Table → Prop} (huser : P adminUsers) (hconn : P databaseConnections)
    (hquery : P databaseSavedQueries) : ∀ t ∈ savedQueryTables, P t := by
  intro t ht
  simp only [savedQueryTables, mem_cons, not_mem_nil, or_false] at ht
  rcases ht with rfl | rfl | rfl
  · exact huser
  · exact hconn
  exact hquery

/-- The saved queries with the tables they refer to. -/
def savedQuerySchema : Schema where
  tables := savedQueryTables
  names := by decide
  columns := by
    apply savedQueryTables_all <;> decide
  keysUnlisted := by
    apply savedQueryTables_all <;> intro dialect <;> cases dialect <;> decide
  references := by
    apply savedQueryTables_all
    · intro ref href
      cases href
    · intro ref href
      cases href
    intro ref href
    simp only [databaseSavedQueries, List.mem_cons, List.not_mem_nil, or_false] at href
    rcases href with rfl | rfl
    · exact ⟨adminUsers, by simp [savedQueryTables], rfl⟩
    exact ⟨databaseConnections, by simp [savedQueryTables], rfl⟩
  referencesUnlisted := by
    apply savedQueryTables_all <;> decide
  listedLong := by
    apply savedQueryTables_all
    all_goals decide
  checksUnlisted := by
    apply savedQueryTables_all <;> intro a b h <;> rfl

/-- A row from the values of its columns. -/
def rowOf (values : List (String × Value)) : Row := fun name => (values.lookup name).getD .null

theorem rowOf_typed {t : Table} {values : List (String × Value)}
    (hnames : values.map Prod.fst = t.columns.map Column.name)
    (htyped : ∀ c ∈ t.columns, c.kind.Typed (rowOf values c.name)) : TypedRow t (rowOf values) := by
  refine ⟨htyped, ?_⟩
  intro name hname
  have hnone : values.lookup name = none := by
    apply lookup_eq_none_iff.mpr
    intro pair hpair
    have hcol : pair.1 ∈ t.columns.map Column.name := hnames ▸ mem_map_of_mem hpair
    obtain ⟨c, hc, hsame⟩ := mem_map.mp hcol
    have hother : ¬ decide (c.name = name) = true := List.find?_eq_none.mp hname c hc
    rw [← hsame]
    apply bne_iff_ne.mpr
    intro heq
    exact hother (decide_eq_true heq.symm)
  unfold rowOf
  rw [hnone]
  rfl

def savedQuery (id name : Text) : Row :=
  rowOf [("id", .text id), ("owner_user_id", .text "u1".toList), ("connection_id", .text "c1".toList),
    ("database_name", .text []), ("name", .text name), ("sql_text", .text "SELECT 1".toList),
    ("created_at", .text "2026-01-01".toList), ("updated_at", .text "2026-01-01".toList),
    ("accessed_at", .text "2026-01-01".toList)]

/-- A SQLite database with one user, one connection and the named saved queries. -/
def savedQuerySource (queries : List (Text × Text)) : Source where
  dialect := .sqlite
  content := fun table =>
    if table = "admin_users" then [rowOf [("id", .text "u1".toList)]]
    else if table = "database_connections" then
      [rowOf [("id", .text "c1".toList), ("credential_ciphertext", .text "kpassword".toList)]]
    else if table = "database_saved_queries" then queries.map fun query => savedQuery query.1 query.2
    else []
  select := fun _ _ => []

/-- A box that puts the key in front, and weights that ignore the case. -/
def plainBox : Runtime Char Unit where
  encrypt := fun key _ plain => key :: plain
  decrypt := fun key cipher =>
    match cipher with
    | first :: plain => if first = key then some plain else none
    | [] => none
  decrypt_encrypt := by
    intro key nonce plain
    exact if_pos rfl
  weights := fun t => t.map fun c => (c.toLower.toNat : ℤ)

theorem savedQuerySource_valid (queries : List (Text × Text))
    (hfree : ∀ key ∈ databaseSavedQueries.keys .sqlite, (queries.map fun query =>
      savedQuery query.1 query.2).Pairwise fun a b => clash plainBox key a b = false) :
    ValidSource plainBox savedQuerySchema (savedQuerySource queries) := by
  constructor
  · apply savedQueryTables_all
    · intro row hrow
      cases mem_singleton.mp hrow
      apply rowOf_typed
      · rfl
      exact forall_mem_singleton.mpr rfl
    · intro row hrow
      cases mem_singleton.mp hrow
      apply rowOf_typed
      · rfl
      exact forall_mem_cons.mpr ⟨rfl, forall_mem_singleton.mpr rfl⟩
    intro row hrow
    obtain ⟨query, -, rfl⟩ := mem_map.mp hrow
    apply rowOf_typed
    · rfl
    intro c hc
    simp only [databaseSavedQueries, mem_cons, not_mem_nil, or_false] at hc
    rcases hc with rfl | rfl | rfl | rfl | rfl | rfl | rfl | rfl | rfl <;> rfl
  · apply savedQueryTables_all
    · exact ⟨fun _ _ => rfl, fun _ _ => pairwise_singleton ..⟩
    · exact ⟨fun _ _ => rfl, fun _ _ => pairwise_singleton ..⟩
    exact ⟨fun _ _ => rfl, hfree⟩
  · intro h
    cases h
  intro h
  cases h

/-- A query of the user goes into an empty MySQL target. -/
theorem migration_lossless_saved_query : (∀ site : EncryptSite, site.column ∈ ENCRYPTED_COLUMNS) ∧
      (Lossless plainBox savedQuerySchema (savedQuerySource [(['q'], "Orders".toList)]) 'k' 'n'
          (fun _ _ => ()) (.mysql (fun _ => []) fun _ => false) ↔
        ((Target.mysql (fun _ => []) fun _ => false).Faultless →
          Portable plainBox savedQuerySchema (savedQuerySource [(['q'], "Orders".toList)]) 'k'
            (.mysql (fun _ => []) fun _ => false)) ∧
        (Portable plainBox savedQuerySchema (savedQuerySource [(['q'], "Orders".toList)]) 'k'
            (.mysql (fun _ => []) fun _ => false) →
          (Target.mysql (fun _ => []) fun _ => false).KeepsLog)) :=
  migration_lossless (savedQuerySource_valid _ (by decide)) 'k' 'n' (fun _ _ => ())
    (.mysql (fun _ => []) fun _ => false)

/-- Two names that differ in their case stand together in SQLite; MySQL refuses the
second one and the migration fails for good. -/
theorem migration_refuses_names : ValidSource plainBox savedQuerySchema
        (savedQuerySource [(['q'], "Orders".toList), (['r'], "orders".toList)]) ∧
      (Target.mysql (fun _ => []) fun _ => false).Faultless ∧ ¬ Lossless plainBox savedQuerySchema
        (savedQuerySource [(['q'], "Orders".toList), (['r'], "orders".toList)]) 'k' 'n'
        (fun _ _ => ()) (.mysql (fun _ => []) fun _ => false) := by
  have hfails : (migrate plainBox savedQuerySchema.tables
      (savedQuerySource [(['q'], "Orders".toList), (['r'], "orders".toList)]) 'k' 'n' (fun _ _ => ())
      (.mysql (fun _ => []) fun _ => false)).done = false := by
    decide +kernel
  refine ⟨savedQuerySource_valid _ (by decide), fun _ => rfl, ?_⟩
  intro hlossless
  have hdone := hlossless.complete fun _ => rfl
  rw [hfails] at hdone
  cases hdone

end ImApp.PlatformMigration
