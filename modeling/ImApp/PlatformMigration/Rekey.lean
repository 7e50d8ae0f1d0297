import ImApp.Library.PairedLists
import ImApp.PlatformMigration.Rows

/-!
The change of the master key. It writes the listed columns only, and every ciphertext
there decrypts under the new key to what it decrypted to under the old one. Keys,
references and checks name no listed column, so that a table takes the rows after the
change exactly when it took them before.
-/

namespace ImApp.PlatformMigration

open JsonText List Option Function PairedLists

/-- The tables of both engines, as their definitions agree: unique names, and listed
columns that are plain long texts. -/
structure Schema where
  tables : List Table
  names : tables.Pairwise fun a b => a.name ≠ b.name
  columns : ∀ t ∈ tables, Distinct t
  keysUnlisted : ∀ t ∈ tables, ∀ dialect, ∀ key ∈ t.keys dialect, ∀ c ∈ key,
    (t.name, c.1) ∉ ENCRYPTED_COLUMNS
  references : ∀ t ∈ tables, ∀ ref ∈ t.references, ∃ parent ∈ tables, parent.name = ref.2.1
  referencesUnlisted : ∀ t ∈ tables, ∀ ref ∈ t.references,
    (t.name, ref.1) ∉ ENCRYPTED_COLUMNS ∧ ref.2 ∉ ENCRYPTED_COLUMNS
  listedLong : ∀ t ∈ tables, ∀ c ∈ t.columns, (t.name, c.name) ∈ ENCRYPTED_COLUMNS → c.kind = .longtext
  checksUnlisted : ∀ t ∈ tables, ∀ a b : Row,
    (∀ name, (t.name, name) ∉ ENCRYPTED_COLUMNS → a name = b name) → t.check a = t.check b

section Rekey

variable {MasterKey Nonce : Type} (r : Runtime MasterKey Nonce)

/-- A value that the change of the key can carry: null, or a ciphertext of the key. -/
def Decryptable (key : MasterKey) (v : Value) : Prop :=
  v = .null ∨ ∃ cipher plain, v = .text cipher ∧ r.decrypt key cipher = some plain

/-- The same secret under the other key. -/
def SameSecret (sourceKey targetKey : MasterKey) (v w : Value) : Prop :=
  (v = .null ∧ w = .null) ∨ ∃ cipher cipher' plain, v = .text cipher ∧ w = .text cipher' ∧
    r.decrypt sourceKey cipher = some plain ∧ r.decrypt targetKey cipher' = some plain

/-- A row after the change of the key: the same secrets in the listed places, the same
values everywhere else. -/
def RekeyedRow (sourceKey targetKey : MasterKey) (places : List (String × String)) (table : String)
    (a b : Row) : Prop :=
  ∀ name, ((table, name) ∈ places → SameSecret r sourceKey targetKey (a name) (b name)) ∧
    ((table, name) ∉ places → b name = a name)

variable {r}

variable {sourceKey targetKey : MasterKey}

theorem rekeyRow_some {nonce : Row → Nonce} {column : String}
    {row out : Row} (h : rekeyRow r sourceKey targetKey nonce column row = some out) :
    SameSecret r sourceKey targetKey (row column) (out column) ∧
      ∀ name, name ≠ column → out name = row name := by
  unfold rekeyRow at h
  split at h
  · rename_i hnull
    cases h
    exact ⟨.inl ⟨hnull, hnull⟩, fun _ _ => rfl⟩
  · cases h
  rename_i cipher hcipher
  obtain ⟨plain, hplain, hout⟩ := map_eq_some_iff.mp h
  subst hout
  refine ⟨.inr ⟨cipher, _, plain, hcipher, update_self .., hplain, r.decrypt_encrypt ..⟩, ?_⟩
  intro name hne
  exact update_of_ne hne ..

theorem rekeyRow_isSome {nonce : Row → Nonce} {column : String}
    {row : Row} : (∃ out, rekeyRow r sourceKey targetKey nonce column row = some out) ↔
      Decryptable r sourceKey (row column) := by
  unfold rekeyRow Decryptable
  split
  · rename_i hnull
    exact ⟨fun _ => .inl hnull, fun _ => ⟨row, rfl⟩⟩
  · rename_i x hnumber
    constructor
    · rintro ⟨out, hout⟩
      cases hout
    rintro (hnull | ⟨cipher, plain, hcipher, -⟩)
    · rw [hnumber] at hnull
      cases hnull
    rw [hnumber] at hcipher
    cases hcipher
  rename_i cipher hcipher
  constructor
  · rintro ⟨out, hout⟩
    obtain ⟨plain, hplain, -⟩ := map_eq_some_iff.mp hout
    exact .inr ⟨cipher, plain, hcipher, hplain⟩
  rintro (hnull | ⟨cipher', plain, hsame, hplain⟩)
  · rw [hcipher] at hnull
    cases hnull
  rw [hcipher] at hsame
  cases hsame
  exact ⟨_, map_eq_some_iff.mpr ⟨plain, hplain, rfl⟩⟩

variable {table : String}

theorem RekeyedRow.refl (a : Row) : RekeyedRow r sourceKey targetKey [] table a a := by
  intro name
  constructor
  · intro h
    cases h
  intro _
  rfl

variable {places : List (String × String)} {a b : Row}

theorem RekeyedRow.step {place : String × String} {c : Row} (hfresh : place ∉ places)
    (hfirst : SameSecret r sourceKey targetKey (a place.2) (b place.2) ∧
      ∀ name, name ≠ place.2 → b name = a name)
    (hrest : RekeyedRow r sourceKey targetKey places place.1 b c) :
    RekeyedRow r sourceKey targetKey (place :: places) place.1 a c := by
  intro name
  by_cases hname : name = place.2
  · subst hname
    have hkept : c place.2 = b place.2 := (hrest place.2).2 hfresh
    rw [hkept]
    exact ⟨fun _ => hfirst.1, fun h => absurd mem_cons_self h⟩
  have hsame := hfirst.2 name hname
  have hother : (place.1, name) ≠ place := fun h => hname (congrArg Prod.snd h)
  constructor
  · intro hmem
    rw [← hsame]
    exact (hrest name).1 ((mem_cons.mp hmem).resolve_left hother)
  intro hmem
  rw [← hsame]
  exact (hrest name).2 fun h => hmem (mem_cons_of_mem _ h)

theorem RekeyedRow.skip {place : String × String} {c : Row} (hother : table ≠ place.1)
    (hrest : RekeyedRow r sourceKey targetKey places table a c) :
    RekeyedRow r sourceKey targetKey (place :: places) table a c := by
  intro name
  have hne : (table, name) ≠ place := fun h => hother (congrArg Prod.fst h)
  constructor
  · intro hmem
    exact (hrest name).1 ((mem_cons.mp hmem).resolve_left hne)
  intro hmem
  exact (hrest name).2 fun h => hmem (mem_cons_of_mem _ h)

theorem rekeyColumns_some {nonces : Nonces Nonce} {content out : Content} (hplaces : places.Nodup)
    (h : rekeyColumns r sourceKey targetKey nonces places content = some out) (table : String) :
    List.Forall₂ (RekeyedRow r sourceKey targetKey places table) (content table) (out table) := by
  induction places generalizing content with
  | nil =>
    cases h
    exact forall₂_same.mpr fun a _ => RekeyedRow.refl a
  | cons place rest ih =>
    obtain ⟨hfresh, hrest⟩ := nodup_cons.mp hplaces
    unfold rekeyColumns at h
    split at h
    · cases h
    rename_i rows hrows
    have hothers := ih hrest h
    by_cases htable : table = place.1
    · subst htable
      rw [update_self] at hothers
      apply PairedLists.comp _ (of_mapM hrows) hothers
      intro a b c hab hbc
      exact RekeyedRow.step hfresh (rekeyRow_some hab) hbc
    rw [update_of_ne htable] at hothers
    exact hothers.imp fun a c hac => RekeyedRow.skip htable hac

theorem rekeyColumns_isSome {nonces : Nonces Nonce} {content : Content} (hplaces : places.Nodup) :
    (∃ out, rekeyColumns r sourceKey targetKey nonces places content = some out) ↔
      ∀ place ∈ places, ∀ row ∈ content place.1, Decryptable r sourceKey (row place.2) := by
  induction places generalizing content with
  | nil => exact ⟨by simp, fun _ => ⟨content, rfl⟩⟩
  | cons place rest ih =>
    obtain ⟨hfresh, hrest⟩ := nodup_cons.mp hplaces
    have hfirst : (∃ rows, (content place.1).mapM
        (rekeyRow r sourceKey targetKey (nonces place) place.2) = some rows) ↔
        ∀ row ∈ content place.1, Decryptable r sourceKey (row place.2) := by
      rw [mapM_defined]
      exact forall₂_congr fun row _ => rekeyRow_isSome
    cases hrows : (content place.1).mapM (rekeyRow r sourceKey targetKey (nonces place) place.2) with
    | none =>
      simp only [rekeyColumns, hrows]
      constructor
      · rintro ⟨out, hout⟩
        cases hout
      intro hall
      obtain ⟨rows, hsome⟩ := hfirst.mpr (hall place mem_cons_self)
      rw [hsome] at hrows
      cases hrows
    | some rows =>
      simp only [rekeyColumns, hrows]
      rw [ih hrest]
      have hpairs := of_mapM hrows
      -- the other listed columns are still what they were
      have hsame : ∀ other ∈ rest, (∀ row ∈ Function.update content place.1 rows other.1,
          Decryptable r sourceKey (row other.2)) ↔
          ∀ row ∈ content other.1, Decryptable r sourceKey (row other.2) := by
        intro other hother
        by_cases htable : other.1 = place.1
        · have hcol : other.2 ≠ place.2 := by
            intro hcol
            exact hfresh (Prod.ext htable hcol ▸ hother)
          rw [htable, update_self]
          constructor
          · intro hall row hrow
            obtain ⟨row', hrow', hrekeyed⟩ := PairedLists.left hpairs hrow
            rw [← (rekeyRow_some hrekeyed).2 other.2 hcol]
            exact hall row' hrow'
          intro hall row' hrow'
          obtain ⟨row, hrow, hrekeyed⟩ := PairedLists.right hpairs hrow'
          rw [(rekeyRow_some hrekeyed).2 other.2 hcol]
          exact hall row hrow
        rw [update_of_ne htable]
      constructor
      · intro hall other hother
        rcases mem_cons.mp hother with rfl | hother
        · exact hfirst.mp ⟨rows, hrows⟩
        exact (hsame other hother).mp (hall other hother)
      intro hall other hother
      exact (hsame other hother).mpr (hall other (mem_cons_of_mem _ hother))

/-- Two rows that differ in listed columns only. -/
def Agree (table : String) (a b : Row) : Prop :=
  ∀ name, (table, name) ∉ ENCRYPTED_COLUMNS → a name = b name

theorem RekeyedRow.agree
    (h : RekeyedRow r sourceKey targetKey ENCRYPTED_COLUMNS table a b) : Agree table a b := by
  intro name hname
  exact ((h name).2 hname).symm

variable {schema : Schema} {t : Table}

theorem RekeyedRow.typed (ht : t ∈ schema.tables)
    (h : RekeyedRow r sourceKey targetKey ENCRYPTED_COLUMNS t.name a b) (ha : TypedRow t a) :
    TypedRow t b := by
  constructor
  · intro c hc
    by_cases hlisted : (t.name, c.name) ∈ ENCRYPTED_COLUMNS
    · rw [schema.listedLong t ht c hc hlisted]
      rcases (h c.name).1 hlisted with ⟨-, hnull⟩ | ⟨-, cipher, -, -, hcipher, -⟩
      · rw [hnull]
        exact trivial
      rw [hcipher]
      rfl
    rw [(h c.name).2 hlisted]
    exact ha.typed c hc
  intro name hname
  have hnull := ha.other name hname
  by_cases hlisted : (t.name, name) ∈ ENCRYPTED_COLUMNS
  · rcases (h name).1 hlisted with ⟨-, hnull'⟩ | ⟨cipher, -, -, hcipher, -⟩
    · exact hnull'
    rw [hnull] at hcipher
    cases hcipher
  rw [(h name).2 hlisted]
  exact hnull

variable {dialect : Dialect}

theorem keyImage_agree {key : Key} (ht : t ∈ schema.tables)
    (hkey : key ∈ t.keys dialect) (h : Agree t.name a b) : keyImage r key a = keyImage r key b := by
  unfold keyImage
  apply mapM_agree
  intro c hc
  rw [h c.1 (schema.keysUnlisted t ht dialect key hkey c hc)]

theorem takes_rekeyed
    (ht : t ∈ schema.tables) (h : RekeyedRow r sourceKey targetKey ENCRYPTED_COLUMNS t.name a b) :
    Takes dialect t a ↔ Takes dialect t b := by
  cases dialect with
  | sqlite =>
    change t.check a = true ↔ t.check b = true
    rw [schema.checksUnlisted t ht a b h.agree]
  | mysql =>
    apply forall₂_congr
    intro c hc
    by_cases hlisted : (t.name, c.name) ∈ ENCRYPTED_COLUMNS
    · rw [schema.listedLong t ht c hc hlisted]
      rcases (h c.name).1 hlisted with ⟨hnull, hnull'⟩ | ⟨cipher, cipher', -, hcipher, hcipher', -⟩
      · rw [hnull, hnull']
      rw [hcipher, hcipher']
      exact iff_of_true rfl rfl
    rw [(h c.name).2 hlisted]

/-- A table takes the rows after the change exactly when it took them before. -/
theorem accepts_rekeyed {rows rows' : List Row} (ht : t ∈ schema.tables)
    (h : List.Forall₂ (RekeyedRow r sourceKey targetKey ENCRYPTED_COLUMNS t.name) rows rows') :
    Accepts r dialect t rows ↔ Accepts r dialect t rows' := by
  have htakes : (∀ row ∈ rows, Takes dialect t row) ↔ ∀ row ∈ rows', Takes dialect t row := by
    constructor
    · intro hall row' hrow'
      obtain ⟨row, hrow, hrekeyed⟩ := PairedLists.right h hrow'
      exact (takes_rekeyed ht hrekeyed).mp (hall row hrow)
    intro hall row hrow
    obtain ⟨row', hrow', hrekeyed⟩ := PairedLists.left h hrow
    exact (takes_rekeyed ht hrekeyed).mpr (hall row' hrow')
  have hfree : ∀ key ∈ t.keys dialect, (rows.Pairwise fun a b => clash r key a b = false) ↔
      rows'.Pairwise fun a b => clash r key a b = false := by
    intro key hkey
    apply PairedLists.pairwise h
    intro a b a' b' hab hab'
    unfold clash
    rw [keyImage_agree ht hkey hab.agree, keyImage_agree ht hkey hab'.agree]
  constructor
  · intro hrows
    exact ⟨htakes.mp hrows.takes, fun key hkey => (hfree key hkey).mp (hrows.free key hkey)⟩
  intro hrows
  exact ⟨htakes.mpr hrows.takes, fun key hkey => (hfree key hkey).mpr (hrows.free key hkey)⟩

/-- The rows of two databases, up to listed columns and order. -/
def Similar (schema : Schema) (x y : Content) : Prop :=
  ∀ t ∈ schema.tables, (∀ a ∈ x t.name, ∃ b ∈ y t.name, Agree t.name a b) ∧
    ∀ b ∈ y t.name, ∃ a ∈ x t.name, Agree t.name a b

theorem Similar.symm {x y : Content} (h : Similar schema x y) : Similar schema y x := by
  intro t ht
  constructor
  · intro b hb
    obtain ⟨a, ha, hagree⟩ := (h t ht).2 b hb
    exact ⟨a, ha, fun name hname => (hagree name hname).symm⟩
  intro a ha
  obtain ⟨b, hb, hagree⟩ := (h t ht).1 a ha
  exact ⟨b, hb, fun name hname => (hagree name hname).symm⟩

theorem Similar.foreignKeys {x y : Content} (h : Similar schema x y)
    (hx : foreignKeysHold schema.tables x = true) : foreignKeysHold schema.tables y = true := by
  simp only [foreignKeysHold, List.all_eq_true, Bool.or_eq_true, decide_eq_true_eq, List.any_eq_true]
    at hx ⊢
  intro t ht ref href row hrow
  obtain ⟨hchild, hpar⟩ := schema.referencesUnlisted t ht ref href
  obtain ⟨parentTable, hparentTable, hname⟩ := schema.references t ht ref href
  obtain ⟨before, hpre, hagree⟩ := (h t ht).2 row hrow
  rw [← hagree ref.1 hchild]
  rcases hx t ht ref href before hpre with hnull | ⟨parent, hmem, hsame⟩
  · exact .inl hnull
  rw [← hname] at hmem
  obtain ⟨parent', hmem', hagree'⟩ := (h parentTable hparentTable).1 parent hmem
  refine .inr ⟨parent', hname ▸ hmem', ?_⟩
  have hunlisted : (parentTable.name, ref.2.2) ∉ ENCRYPTED_COLUMNS := by
    rw [hname]
    exact hpar
  rw [← hagree' ref.2.2 hunlisted]
  exact hsame

end Rekey

end ImApp.PlatformMigration
