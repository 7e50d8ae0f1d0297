import ImApp.DatabaseSync.DataSync

/-!
Keys as the server and as the sync compare them. Rows with the same key text have equal
keys for the server; the converse fails where a collation takes different texts to be
equal.
-/

namespace ImApp.DatabaseSync

open List

variable {collation : Collation} {schema : Schema} {columns primaryKey : List Column}
  {rows : List Row} {a b c : Row}

namespace Collation

theorem equal_refl (collation : Collation) (column : Column) (x : JsValue) :
    collation.equal column x x = true := by
  have htotal := collation.total column x x
  simp only [or_self] at htotal
  simp [equal, htotal]

theorem equal_symm {column : Column} {x y : JsValue} (h : collation.equal column x y = true) :
    collation.equal column y x = true := by
  simp only [equal, Bool.and_eq_true] at h ⊢
  exact h.symm

theorem equal_trans {column : Column} {x y z : JsValue} (hxy : collation.equal column x y = true)
    (hyz : collation.equal column y z = true) : collation.equal column x z = true := by
  simp only [equal, Bool.and_eq_true] at hxy hyz ⊢
  exact ⟨collation.trans _ _ _ _ hxy.1 hyz.1, collation.trans _ _ _ _ hyz.2 hxy.2⟩

theorem sameKey_of_eq (collation : Collation) (h : ∀ column ∈ primaryKey, a column = b column) :
    collation.sameKey primaryKey a b := by
  intro column hcol
  rw [h column hcol]
  exact collation.equal_refl column _

theorem sameKey_symm (h : collation.sameKey primaryKey a b) : collation.sameKey primaryKey b a :=
  fun column hcol => equal_symm (h column hcol)

theorem sameKey_trans (hab : collation.sameKey primaryKey a b)
    (hbc : collation.sameKey primaryKey b c) : collation.sameKey primaryKey a c :=
  fun column hcol => equal_trans (hab column hcol) (hbc column hcol)

theorem tupleEqual_iff (h : ∀ column ∈ primaryKey, (b column).isNull = false) :
    collation.tupleEqual primaryKey a (primaryKey.map b) = true ↔
      collation.sameKey primaryKey b a := by
  induction primaryKey with
  | nil => simp [tupleEqual, sameKey]
  | cons column primaryKey ih =>
    have hrest := ih (fun other hother => h other (mem_cons_of_mem _ hother))
    simp only [map_cons, tupleEqual, h column mem_cons_self, Bool.not_false,
      Bool.true_and, Bool.and_eq_true, hrest]
    simp [sameKey]

theorem rowLe_total (collation : Collation) (primaryKey : List Column) (a b : Row) :
    collation.rowLe primaryKey a b = true ∨ collation.rowLe primaryKey b a = true := by
  induction primaryKey with
  | nil => exact .inl rfl
  | cons column primaryKey ih =>
    have htotal := collation.total column (a column) (b column)
    simp only [rowLe, less, equal, Bool.or_eq_true, Bool.and_eq_true]
    cases hab : collation.le column (a column) (b column) <;>
      cases hba : collation.le column (b column) (a column) <;> simp_all

theorem rowLe_trans (hab : collation.rowLe primaryKey a b = true)
    (hbc : collation.rowLe primaryKey b c = true) : collation.rowLe primaryKey a c = true := by
  induction primaryKey with
  | nil => rfl
  | cons column primaryKey ih =>
    simp only [rowLe, less, equal, Bool.or_eq_true, Bool.and_eq_true, Bool.not_eq_true'] at *
    have h1 := collation.trans column (a column) (b column) (c column)
    have h2 := collation.trans column (c column) (a column) (b column)
    have h3 := collation.trans column (b column) (c column) (a column)
    grind

theorem rowLe_antisymm :
    (collation.rowLe primaryKey a b = true ∧ collation.rowLe primaryKey b a = true) ↔
      collation.sameKey primaryKey a b := by
  induction primaryKey with
  | nil => simp [rowLe, sameKey]
  | cons column primaryKey ih =>
    have hcons : collation.sameKey (column :: primaryKey) a b ↔
        collation.equal column (a column) (b column) = true ∧ collation.sameKey primaryKey a b := by
      simp [sameKey]
    rw [hcons, ← ih]
    simp only [rowLe, less, equal, Bool.or_eq_true, Bool.and_eq_true, Bool.not_eq_true']
    cases hab : collation.le column (a column) (b column) <;>
      cases hba : collation.le column (b column) (a column) <;> simp

instance : Std.Total (fun a b : Row => collation.rowLe primaryKey a b = true) :=
  ⟨collation.rowLe_total primaryKey⟩

instance : IsTrans Row (fun a b : Row => collation.rowLe primaryKey a b = true) :=
  ⟨fun _ _ _ => rowLe_trans⟩

theorem tupleGreater_iff (h : ∀ column ∈ primaryKey, (a column).isNull = false) :
    collation.tupleGreater primaryKey b (primaryKey.map a) = true ↔
      KeysetPaging.Before (fun a b => collation.rowLe primaryKey a b = true) a b := by
  induction primaryKey with
  | nil => simp [tupleGreater, rowLe, KeysetPaging.Before]
  | cons column primaryKey ih =>
    have hrest := ih (fun other hother => h other (mem_cons_of_mem _ hother))
    simp only [KeysetPaging.Before] at hrest
    simp only [map_cons, tupleGreater, h column mem_cons_self, Bool.not_false,
      Bool.true_and, Bool.or_eq_true, Bool.and_eq_true, hrest, KeysetPaging.Before, rowLe,
      less, equal]
    cases hab : collation.le column (a column) (b column) <;>
      cases hba : collation.le column (b column) (a column) <;> simp

end Collation

theorem natRepr_inj {m n : ℕ} (h : Nat.repr m = Nat.repr n) : m = n := by
  have hdigits := congrArg String.toList h
  rw [Nat.toList_repr, Nat.toList_repr] at hdigits
  rw [← @Nat.ofDigitChars_toDigits 10 m (by decide) (by decide), hdigits,
    Nat.ofDigitChars_toDigits (by decide) (by decide)]

theorem intText_inj {x y : ℤ} (h : toString x = toString y) : x = y := by
  have hsign : ∀ m n : ℕ, Nat.repr m ≠ "-" ++ Nat.repr n := by
    intro m n heq
    have hlist := congrArg String.toList heq
    rw [Nat.toList_repr, String.toList_append] at hlist
    have hmem : '-' ∈ Nat.toDigits 10 m := by
      rw [hlist]
      simp
    exact absurd (Nat.isDigit_of_mem_toDigits (b := 10) (by decide) (by decide) hmem) (by decide)
  cases x with
  | ofNat m =>
    cases y with
    | ofNat n => exact congrArg Int.ofNat (natRepr_inj h)
    | negSucc n => exact absurd h (hsign _ _)
  | negSucc m =>
    cases y with
    | ofNat n => exact absurd h.symm (hsign _ _)
    | negSucc n =>
      have hdigits := congrArg String.toList h
      simp only [toString, Int.repr, String.toList_append, append_cancel_left_eq] at hdigits
      have hsucc := natRepr_inj (String.toList_inj.mp hdigits)
      exact congrArg Int.negSucc (Nat.succ.inj hsucc)

/-- Values of one type other than JSON are told apart by their normalized values. -/
theorem normalizedValue_injective {kind : Kind} {x y : JsValue} (hkind : kind ≠ .json)
    (hx : kind.admits x = true) (hy : kind.admits y = true)
    (h : normalizedValue x = normalizedValue y) : x = y := by
  cases kind with
  | json => exact absurd rfl hkind
  | bigint =>
    cases x <;> cases hx <;> cases y <;> cases hy
    case null.refl.null.refl => rfl
    case bigint.refl.bigint.refl m n =>
      have htexts := congrArg String.toList (JsValue.text.inj h)
      rw [String.toList_append, String.toList_append, append_cancel_left_eq] at htexts
      exact congrArg JsValue.bigint (intText_inj (String.toList_inj.mp htexts))
    all_goals cases h
  | scalar | binary | date =>
    cases x <;> cases hx <;> cases y <;> cases hy <;> simp_all [normalizedValue]

theorem rowKey_of_eq (h : ∀ column ∈ primaryKey, a column = b column) :
    rowKey primaryKey a = rowKey primaryKey b := by
  refine map_congr_left fun column hcol => ?_
  rw [h column hcol]

theorem rowsEqual_iff : rowsEqual a b columns = true ↔
      ∀ column ∈ columns, normalizedValue (a column) = normalizedValue (b column) := by
  simp [rowsEqual]

@[simp] theorem select_apply {column : Column} (h : column ∈ columns) :
    select columns a column = a column := by
  simp [select, h]

theorem restrict_congr (h : ∀ column ∈ columns, a column = b column) :
    restrict columns a = restrict columns b :=
  map_congr_left h

theorem restrict_eq_iff :
    restrict columns a = restrict columns b ↔ ∀ column ∈ columns, a column = b column :=
  map_inj_left

/-- What the key columns of a stored row hold. -/
structure Readable (schema : Schema) (columns : List Column) (row : Row) : Prop where
  present : ∀ column ∈ schema.primaryKey, (row column).isNull = false
  typed : ∀ column ∈ columns, (schema.kind column).admits (row column) = true

theorem Sound.readable (h : Sound collation schema columns rows) (hrow : a ∈ rows) :
    Readable schema columns a :=
  ⟨h.present a hrow, h.typed a hrow⟩

section Key

variable (hkey : schema.primaryKey ⊆ columns)
include hkey

theorem rowKey_inj (ha : Readable schema columns a) (hb : Readable schema columns b) :
    rowKey schema.primaryKey a = rowKey schema.primaryKey b ↔
      ∀ column ∈ schema.primaryKey, a column = b column := by
  refine ⟨fun h column hcol => ?_, rowKey_of_eq⟩
  have hentry := (map_inj_left.mp h) column hcol
  have hadmits := fun {row : Row} (hrow : Readable schema columns row) =>
    hrow.typed column (hkey hcol)
  refine normalizedValue_injective (schema.keyKind column hcol) (hadmits ha) (hadmits hb) ?_
  have hfirst := ha.present column hcol
  have hsecond := hb.present column hcol
  revert hentry hfirst hsecond
  cases a column <;> cases b column <;> simp [normalizedValue, JsValue.isNull]

theorem sameKey_of_rowKey (collation : Collation) (ha : Readable schema columns a)
    (hb : Readable schema columns b) (h : rowKey schema.primaryKey a = rowKey schema.primaryKey b) :
    collation.sameKey schema.primaryKey a b :=
  collation.sameKey_of_eq ((rowKey_inj hkey ha hb).mp h)

end Key

end ImApp.DatabaseSync
