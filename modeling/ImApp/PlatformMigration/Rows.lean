import ImApp.PlatformMigration.Snapshot
import Mathlib.Data.List.Pairwise

/-!
What inserting rows into a table keeps of them. A row of the platform comes through the
drivers and the columns unchanged; a table takes a list of rows when it takes each of
them and no two clash in a unique key.

Replacing the database of the target by a snapshot. In MySQL one transaction deletes and
inserts all rows. For SQLite the start of the server replaces the file, and before that
removes the write-ahead log of the old one. Each may fail at any step.
-/

namespace ImApp.PlatformMigration

open JsonText

section Replace

variable {MasterKey Nonce : Type} (r : Runtime MasterKey Nonce) (tables : List Table)

inductive Command where
  | setForeignKeyChecks (on : Bool)
  | deleteFrom (t : Table)
  | insertInto (t : Table) (bound : Row)

def runCommand : Command → Content → Option Content
  | .setForeignKeyChecks _, db => some db
  | .deleteFrom t, db => some (Function.update db t.name [])
  | .insertInto t bound, db =>
    (insertRow r .mysql t (db t.name) bound).map fun rows => Function.update db t.name rows

/-- Runs commands from the `n`-th of the run on; a command of `fails` gets no answer. -/
def runCommands (fails : ℕ → Bool) : ℕ → List Command → Content → Option Content
  | _, [], db => some db
  | n, c :: rest, db => if fails n then none else match runCommand r c db with
      | none => none
      | some db => runCommands fails (n + 1) rest db

def insertCommands (snapshot : Content) (t : Table) : List Command :=
  (snapshot t.name).map fun row => .insertInto t (bindRow .sqlite t row)

/-- The commands of the transaction; the checks are set again also after a failure. -/
def replaceCommands (snapshot : Content) : List Command :=
  [.setForeignKeyChecks false] ++ tables.map .deleteFrom ++ tables.flatMap (insertCommands snapshot) ++
    [.setForeignKeyChecks true]

/-- The outcome of a replacement and the database after it. -/
structure Outcome where
  done : Bool
  database : Content

/-- A transaction that is not committed leaves the database as it was. -/
def replaceMysqlFromPortableSnapshot (fails : ℕ → Bool) (snapshot target : Content) : Outcome :=
  let commands := replaceCommands tables snapshot
  match runCommands r fails 0 commands target with
  | none => ⟨false, target⟩
  | some db => if fails commands.length then ⟨false, target⟩ else ⟨true, db⟩

/-- The database file with what its write-ahead log makes of it, if there is one. -/
structure DatabaseFiles where
  main : Content
  wal : Option Content

/-- What SQLite finds when it opens the file. -/
def DatabaseFiles.opened (files : DatabaseFiles) : Content := files.wal.getD files.main

/-- The steps of `applyPendingRestore`: the safety copy, the staged copy, the removal of
the log and of its index, and the renaming of the staged copy. -/
def restoreSteps (snapshot : Content) : List (DatabaseFiles → DatabaseFiles) :=
  [id, id, fun files => { files with wal := none }, id, fun files => { files with main := snapshot }]

/-- A restore that stops before one of its steps, or none. -/
def applyPendingRestore (stopsAt : Option ℕ) (snapshot : Content) (files : DatabaseFiles) : Outcome :=
  let steps := restoreSteps snapshot
  let reached := (steps.take (stopsAt.getD steps.length)).foldl (fun files step => step files) files
  ⟨steps.length ≤ stopsAt.getD steps.length, reached.opened⟩

/-- The target with what fails while it is replaced. -/
inductive Target where
  | sqlite (files : DatabaseFiles) (stopsAt : Option ℕ)
  | mysql (content : Content) (fails : ℕ → Bool)

def Target.database : Target → Content
  | .sqlite files _ => files.opened
  | .mysql content _ => content

def replaceDatabase (snapshot : Content) : Target → Outcome
  | .sqlite files stopsAt => applyPendingRestore stopsAt snapshot files
  | .mysql content fails => replaceMysqlFromPortableSnapshot r tables fails snapshot content

/-- Export, change of the key and replacement. -/
def migrate (source : Source) (sourceKey targetKey : MasterKey) (nonces : Nonces Nonce)
    (target : Target) : Outcome :=
  match exportPortableSnapshot r tables source with
  | none => ⟨false, target.database⟩
  | some exported =>
    match rekeyPortableSnapshot r tables sourceKey targetKey nonces exported with
    | none => ⟨false, target.database⟩
    | some snapshot => replaceDatabase r tables snapshot target

end Replace

end ImApp.PlatformMigration

namespace ImApp.PlatformMigration

open JsonText

theorem digitsValue_toDigits (n : Nat) : digitsValue (Nat.toDigits 10 n) = some n := by
  have hne : Nat.toDigits 10 n ≠ [] := Nat.toDigits_ne_nil
  have hdigits : (Nat.toDigits 10 n).all Char.isDigit = true := by
    apply List.all_eq_true.mpr
    intro c hc
    exact Nat.isDigit_of_mem_toDigits (by omega) (by omega) hc
  unfold digitsValue
  rw [hdigits]
  simp [hne]

theorem parseInteger_showInteger (n : Int) : parseInteger (showInteger n) = some n := by
  unfold showInteger
  split
  · change (digitsValue (Nat.toDigits 10 n.natAbs)).map (fun m : Nat => -Int.ofNat m) = some n
    rw [digitsValue_toDigits, Option.map_some, Int.ofNat_eq_natCast]
    congr 1
    omega
  have hplain : parseInteger (Nat.toDigits 10 n.natAbs) =
      (digitsValue (Nat.toDigits 10 n.natAbs)).map Int.ofNat := by
    unfold parseInteger
    split
    · rename_i rest hminus
      have hmem : '-' ∈ Nat.toDigits 10 n.natAbs := by
        rw [hminus]
        exact List.mem_cons_self
      have hdigit : ('-').isDigit = true := Nat.isDigit_of_mem_toDigits (by omega) (by omega) hmem
      cases hdigit
    rfl
  rw [hplain, digitsValue_toDigits, Option.map_some, Int.ofNat_eq_natCast]
  congr 1
  omega

/-- A value of the kind of its column. -/
def Kind.Typed : Kind → Value → Prop
  | _, .null => True
  | kind, .text _ => kind.textual = true
  | .double, .number _ => True
  | .int, .number x => x.den = 1
  | .bigint, .number x => x.den = 1
  | _, .number _ => False

theorem keep_sqlite {kind : Kind} {v : Value} (h : kind.Typed v) : keep .sqlite kind v = some v := by
  cases v with
  | null => rfl
  | text t =>
    have htextual : kind.textual = true := by cases kind <;> exact h
    simp [keep, htextual]
  | number x => cases kind <;> first | rfl | exact h.elim

theorem keep_read {dialect : Dialect} {kind : Kind} {v : Value} (h : kind.Typed v) :
    keep .sqlite kind (read dialect kind v) = some v := by
  have hsame := keep_sqlite h
  unfold read
  split
  · rename_i x
    split
    · exact hsame
    have hx : ((x.num : Int) : ℚ) = x := Rat.coe_int_num_of_den_eq_one h
    simp [keep, Kind.textual, parseInteger_showInteger, hx]
  exact hsame

theorem keep_mysql {kind : Kind} {v kept : Value} (h : keep .mysql kind v = some kept) : kept = v := by
  cases v with
  | null =>
    cases h
    rfl
  | number x =>
    change (if kind.holdsNumber x then some (Value.number x) else none) = some kept at h
    split at h
    · exact (Option.some.inj h).symm
    cases h
  | text t =>
    change (if kind.holdsText t then some (Value.text t) else none) = some kept at h
    split at h
    · exact (Option.some.inj h).symm
    cases h

/-- A row of the platform: values of their columns' kinds, and nothing else. -/
structure TypedRow (t : Table) (row : Row) : Prop where
  typed : ∀ c ∈ t.columns, c.kind.Typed (row c.name)
  other : ∀ name, t.column name = none → row name = .null

/-- What the columns and checks of an engine ask of a row. -/
def Takes : Dialect → Table → Row → Prop
  | .sqlite, t, row => t.check row = true
  | .mysql, t, row => ∀ c ∈ t.columns, (keep .mysql c.kind (row c.name)).isSome = true

theorem column_mem {t : Table} {name : String} {c : Column} (h : t.column name = some c) :
    c ∈ t.columns ∧ c.name = name :=
  ⟨List.mem_of_find?_eq_some h, by simpa using List.find?_some h⟩

theorem storedRow_eq {dialect : Dialect} {t : Table} {bound row : Row}
    (hkept : ∀ c ∈ t.columns, ∀ kept, keep dialect c.kind (bound c.name) = some kept → kept = row c.name)
    (hother : ∀ name, t.column name = none → row name = .null) : storedRow dialect t bound =
      if t.columns.all fun c => (keep dialect c.kind (bound c.name)).isSome then some row else none := by
  unfold storedRow
  split
  · rename_i hall
    congr 1
    funext name
    cases hcol : t.column name with
    | none => exact (hother name hcol).symm
    | some c =>
      obtain ⟨hmem, rfl⟩ := column_mem hcol
      obtain ⟨kept, hsome⟩ := Option.isSome_iff_exists.mp (List.all_eq_true.mp hall c hmem)
      simp only [hsome, Option.getD_some]
      exact hkept c hmem kept hsome
  rfl

section Insert

variable {MasterKey Nonce : Type} (r : Runtime MasterKey Nonce)

/-- In a schema every column has one name. -/
def Distinct (t : Table) : Prop := t.columns.Pairwise fun a b => a.name ≠ b.name

instance (t : Table) : Decidable (Distinct t) :=
  inferInstanceAs (Decidable (t.columns.Pairwise fun a b => a.name ≠ b.name))

variable {t : Table}

theorem column_of_mem (hdist : Distinct t) {c : Column} (hc : c ∈ t.columns) :
    t.column c.name = some c := by
  cases hfound : t.column c.name with
  | none =>
    have hnone := List.find?_eq_none.mp hfound c hc
    simp at hnone
  | some other =>
    obtain ⟨hmem, hname⟩ := column_mem hfound
    by_contra hne
    have hsymm : Std.Symm fun a b : Column => a.name ≠ b.name := ⟨fun _ _ h => h.symm⟩
    exact hdist.forall hmem hc (fun hsame => hne (by rw [hsame])) hname

variable {source dialect : Dialect}

theorem bindRow_of_mem (hdist : Distinct t) (row : Row) {c : Column}
    (hc : c ∈ t.columns) : bindRow source t row c.name = read source c.kind (row c.name) := by
  unfold bindRow
  rw [column_of_mem hdist hc]

theorem storedRow_bindRow {row : Row} (hdist : Distinct t)
    (hrow : TypedRow t row) (hpath : dialect = .sqlite ∨ source = .sqlite) :
    storedRow dialect t (bindRow source t row) =
      if t.columns.all fun c => (keep dialect c.kind (bindRow source t row c.name)).isSome
      then some row else none := by
  apply storedRow_eq _ hrow.other
  intro c hc kept hsome
  rw [bindRow_of_mem hdist row hc] at hsome
  rcases hpath with rfl | rfl
  · rw [keep_read (hrow.typed c hc)] at hsome
    exact (Option.some.inj hsome).symm
  cases dialect with
  | sqlite =>
    rw [keep_read (hrow.typed c hc)] at hsome
    exact (Option.some.inj hsome).symm
  | mysql => exact keep_mysql hsome

variable {rows : List Row}

theorem insertRow_bindRow {row : Row} {out : List Row}
    (hdist : Distinct t) (hrow : TypedRow t row) (hpath : dialect = .sqlite ∨ source = .sqlite) :
    insertRow r dialect t rows (bindRow source t row) = some out ↔
      out = rows ++ [row] ∧ Takes dialect t row ∧
        ∀ key ∈ t.keys dialect, ∀ other ∈ rows, clash r key other row = false := by
  have hall : (t.columns.all fun c => (keep dialect c.kind (bindRow source t row c.name)).isSome) =
      true ↔ (dialect = .mysql → Takes .mysql t row) := by
    rw [List.all_eq_true]
    constructor
    · rintro hkeeps rfl c hc
      have hkeep := hkeeps c hc
      rw [bindRow_of_mem hdist row hc] at hkeep
      rcases hpath with hpath | rfl
      · cases hpath
      exact hkeep
    intro htakes c hc
    rw [bindRow_of_mem hdist row hc]
    cases dialect with
    | sqlite =>
      rw [keep_read (hrow.typed c hc)]
      rfl
    | mysql =>
      rcases hpath with hpath | rfl
      · cases hpath
      exact htakes rfl c hc
  have htakes : Takes dialect t row ↔
      (dialect = .mysql → Takes .mysql t row) ∧ (dialect = .mysql ∨ t.check row = true) := by
    cases dialect <;> simp [Takes]
  have hfree : ((t.keys dialect).all fun key => !rows.any fun other => clash r key other row) = true ↔
      ∀ key ∈ t.keys dialect, ∀ other ∈ rows, clash r key other row = false := by
    simp
  unfold insertRow
  rw [storedRow_bindRow hdist hrow hpath, htakes, ← hall, ← hfree]
  cases t.columns.all fun c => (keep dialect c.kind (bindRow source t row c.name)).isSome with
  | false => simp
  | true =>
    rw [if_pos rfl]
    simp only [true_and, Bool.and_eq_true, Bool.or_eq_true, decide_eq_true_eq]
    constructor
    · intro h
      split at h
      · rename_i hgood
        exact ⟨(Option.some.inj h).symm, hgood⟩
      cases h
    rintro ⟨rfl, hgood⟩
    rw [if_pos hgood]

/-- A table takes all rows together. -/
structure Accepts (dialect : Dialect) (t : Table) (rows : List Row) : Prop where
  takes : ∀ row ∈ rows, Takes dialect t row
  free : ∀ key ∈ t.keys dialect, rows.Pairwise fun a b => clash r key a b = false

theorem clash_comm (key : Key) (a b : Row) : clash r key a b = clash r key b a := by
  apply Bool.eq_iff_iff.mpr
  simp only [clash, Bool.and_eq_true, decide_eq_true_eq]
  constructor <;>
  · rintro ⟨hsome, hsame⟩
    exact ⟨hsame ▸ hsome, hsame.symm⟩

theorem Accepts.perm {rows' : List Row} (hperm : rows.Perm rows') :
    Accepts r dialect t rows ↔ Accepts r dialect t rows' := by
  have hfree : ∀ key, (rows.Pairwise fun a b => clash r key a b = false) ↔
      rows'.Pairwise fun a b => clash r key a b = false := by
    intro key
    apply hperm.pairwise_iff
    intro a b h
    rwa [clash_comm]
  constructor
  · intro h
    exact ⟨fun row hrow => h.takes row (hperm.mem_iff.mpr hrow), fun key hkey => (hfree key).mp (h.free key hkey)⟩
  intro h
  exact ⟨fun row hrow => h.takes row (hperm.mem_iff.mp hrow), fun key hkey => (hfree key).mpr (h.free key hkey)⟩

/-- Inserting rows one by one appends them all, if the table takes them together with
those it has. -/
theorem insertRows_append (hdist : Distinct t)
    (hpath : dialect = .sqlite ∨ source = .sqlite) (rows present out : List Row)
    (hrows : ∀ row ∈ rows, TypedRow t row) :
    rows.foldlM (fun kept row => insertRow r dialect t kept (bindRow source t row)) present = some out ↔
      out = present ++ rows ∧ Accepts r dialect t rows ∧
        ∀ key ∈ t.keys dialect, ∀ a ∈ present, ∀ b ∈ rows, clash r key a b = false := by
  induction rows generalizing present with
  | nil =>
    simp only [List.foldlM_nil, List.append_nil]
    constructor
    · rintro ⟨⟩
      exact ⟨rfl, ⟨by simp, by simp⟩, by simp⟩
    rintro ⟨rfl, -⟩
    rfl
  | cons row rest ih =>
    have hrow := hrows row List.mem_cons_self
    have hrest : ∀ row ∈ rest, TypedRow t row := fun row h => hrows row (List.mem_cons_of_mem _ h)
    rw [List.foldlM_cons]
    constructor
    · intro h
      obtain ⟨kept, hfirst, hothers⟩ := Option.bind_eq_some_iff.mp h
      obtain ⟨rfl, htakes, hfree⟩ := (insertRow_bindRow r hdist hrow hpath).mp hfirst
      obtain ⟨rfl, haccepts, hacross⟩ := (ih _ hrest).mp hothers
      refine ⟨by simp, ⟨?_, ?_⟩, ?_⟩
      · intro other hother
        rcases List.mem_cons.mp hother with rfl | hother
        · exact htakes
        exact haccepts.takes other hother
      · intro key hkey
        apply List.pairwise_cons.mpr
        exact ⟨fun b hb => hacross key hkey row (by simp) b hb, haccepts.free key hkey⟩
      intro key hkey a ha b hb
      rcases List.mem_cons.mp hb with rfl | hb
      · exact hfree key hkey a ha
      exact hacross key hkey a (by simp [ha]) b hb
    rintro ⟨rfl, haccepts, hacross⟩
    have hfirst : insertRow r dialect t present (bindRow source t row) = some (present ++ [row]) :=
      (insertRow_bindRow r hdist hrow hpath).mpr ⟨rfl, haccepts.takes row List.mem_cons_self,
        fun key hkey other hother => hacross key hkey other hother row List.mem_cons_self⟩
    have hothers := (ih (present ++ [row]) hrest).mpr ⟨(List.append_cons present row rest),
      ⟨fun other hother => haccepts.takes other (List.mem_cons_of_mem _ hother),
        fun key hkey => (List.pairwise_cons.mp (haccepts.free key hkey)).2⟩, by
      intro key hkey a ha b hb
      rcases List.mem_append.mp ha with ha | ha
      · exact hacross key hkey a ha b (List.mem_cons_of_mem _ hb)
      cases List.mem_singleton.mp ha
      exact (List.pairwise_cons.mp (haccepts.free key hkey)).1 b hb⟩
    rw [hfirst]
    simpa using hothers

/-- A fresh table holds exactly the rows inserted, if it takes them together. -/
theorem insertRows_eq (hdist : Distinct t)
    (hpath : dialect = .sqlite ∨ source = .sqlite) {out : List Row}
    (hrows : ∀ row ∈ rows, TypedRow t row) :
    rows.foldlM (fun kept row => insertRow r dialect t kept (bindRow source t row)) [] = some out ↔
      out = rows ∧ Accepts r dialect t rows := by
  have happend := insertRows_append r hdist hpath rows [] out hrows
  simpa using happend

end Insert

theorem fillTables_some {rowsOf : Table → Option (List Row)} {tables : List Table} {content out : Content}
    (hnames : tables.Pairwise fun a b => a.name ≠ b.name) :
    fillTables rowsOf tables content = some out ↔ (∀ t ∈ tables, rowsOf t = some (out t.name)) ∧
        ∀ name, (∀ t ∈ tables, t.name ≠ name) → out name = content name := by
  induction tables generalizing content with
  | nil =>
    constructor
    · rintro ⟨⟩
      exact ⟨by simp, fun _ _ => rfl⟩
    rintro ⟨-, hrest⟩
    rw [fillTables, funext fun name => hrest name (by simp)]
  | cons t rest ih =>
    obtain ⟨hfresh, hrest⟩ := List.pairwise_cons.mp hnames
    have hother : ∀ u ∈ rest, ∀ rows, Function.update content t.name rows u.name = content u.name := by
      intro u hu rows
      exact Function.update_of_ne (hfresh u hu).symm rows content
    cases hrows : rowsOf t with
    | none =>
      simp only [fillTables, hrows]
      constructor
      · intro h
        cases h
      rintro ⟨hall, -⟩
      rw [hall t List.mem_cons_self] at hrows
      cases hrows
    | some rows =>
      simp only [fillTables, hrows]
      rw [ih hrest]
      constructor
      · rintro ⟨hall, hkept⟩
        have hthis : out t.name = rows := by
          rw [hkept t.name (fun u hu => (hfresh u hu).symm), Function.update_self]
        refine ⟨?_, ?_⟩
        · intro u hu
          rcases List.mem_cons.mp hu with rfl | hu
          · rw [hrows, hthis]
          exact hall u hu
        intro name hname
        have hne : name ≠ t.name := (hname t List.mem_cons_self).symm
        rw [hkept name (fun u hu => hname u (List.mem_cons_of_mem _ hu)), Function.update_of_ne hne]
      rintro ⟨hall, hkept⟩
      have hthis : out t.name = rows :=
        (Option.some.inj (hrows.symm.trans (hall t List.mem_cons_self))).symm
      refine ⟨fun u hu => hall u (List.mem_cons_of_mem _ hu), ?_⟩
      intro name hname
      by_cases hself : name = t.name
      · subst hself
        rw [hthis, Function.update_self]
      rw [Function.update_of_ne hself]
      apply hkept
      intro u hu
      rcases List.mem_cons.mp hu with rfl | hu
      · exact fun h => hself h.symm
      exact hname u hu

theorem fillTables_isSome {rowsOf : Table → Option (List Row)} {tables : List Table} {content : Content} :
    (∃ out, fillTables rowsOf tables content = some out) ↔ ∀ t ∈ tables, ∃ rows, rowsOf t = some rows := by
  induction tables generalizing content with
  | nil => exact ⟨by simp, fun _ => ⟨content, rfl⟩⟩
  | cons t rest ih =>
    rw [List.forall_mem_cons]
    cases hrows : rowsOf t with
    | none =>
      simp only [fillTables, hrows]
      constructor
      · rintro ⟨out, hout⟩
        cases hout
      rintro ⟨⟨rows, hsome⟩, -⟩
      cases hsome
    | some rows =>
      simp only [fillTables, hrows]
      rw [ih]
      constructor
      · intro hrest
        exact ⟨⟨rows, rfl⟩, hrest⟩
      intro hall
      exact hall.2

end ImApp.PlatformMigration
