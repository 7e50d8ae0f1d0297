import ImApp.Library.JsonText

/-!
JSON values as JavaScript reads them. `undefined` is the absent value, a property of
`null` or of `undefined` throws, and an object spread lets the later fields win. A
number stands for its shortest spelling, so that equal numbers are spelled alike.
-/

namespace JsObject

open JsonText List

abbrev Fields := List (Text × Json)

/-- A value or `undefined`. -/
abbrev Value := Option Json

def keys (fields : Fields) : List Text := fields.map Prod.fst

def field (fields : Fields) (key : String) : Value := fields.lookup key.toList

/-- `{ ...base, ...extra }` -/
def assign (base extra : Fields) : Fields := base.filter (fun f => f.1 ∉ keys extra) ++ extra

def objectOf : Value → Fields
  | some (.object fields) => fields
  | _ => []

def object (fields : List (String × Json)) : Json :=
  .object (fields.map fun f => (f.1.toList, f.2))

def text (t : Text) : Json := .string t

/-- A value that is neither `undefined` nor `null`. -/
def present : Value → Option Json
  | none => none
  | some .null => none
  | some v => some v

def member : Json → String → Value
  | .object fields, key => field fields key
  | _, _ => none

/-- `v.key`, which throws where `v` is not present. -/
def read (v : Value) (key : String) : Option Value := (present v).map fun v => member v key

/-- `v?.key` -/
def readOptional (v : Value) (key : String) : Value := (present v).bind fun v => member v key

/-- `v ?? other` -/
def nullish (v : Value) (other : Json) : Json := (present v).getD other

def truthy : Value → Bool
  | none => false
  | some .null => false
  | some (.bool b) => b
  | some (.number literal) => literal ≠ ['0']
  | some (.string t) => !t.isEmpty
  | some _ => true

/-- `a === b`. Two arrays or objects that were read from texts are never the same. -/
def strictEq : Value → Value → Bool
  | none, none => true
  | some .null, some .null => true
  | some (.bool a), some (.bool b) => a = b
  | some (.number a), some (.number b) => a = b
  | some (.string a), some (.string b) => a = b
  | _, _ => false

theorem keys_assign {base extra : Fields} {key : Text} :
    key ∈ keys (assign base extra) ↔ key ∈ keys base ∨ key ∈ keys extra := by
  unfold assign keys
  rw [map_append, mem_append]
  constructor
  · rintro (hbase | hextra)
    · obtain ⟨f, hf, rfl⟩ := mem_map.mp hbase
      exact Or.inl (mem_map.mpr ⟨f, (mem_filter.mp hf).1, rfl⟩)
    exact Or.inr hextra
  rintro (hbase | hextra)
  · by_cases hagain : key ∈ extra.map Prod.fst
    · exact Or.inr hagain
    obtain ⟨f, hf, rfl⟩ := mem_map.mp hbase
    apply Or.inl
    exact mem_map.mpr ⟨f, mem_filter.mpr ⟨hf, by simpa [keys] using hagain⟩, rfl⟩
  exact Or.inr hextra

theorem assign_disjoint {base extra : Fields} (h : ∀ key ∈ keys extra, key ∉ keys base) :
    assign base extra = base ++ extra := by
  unfold assign
  congr 1
  apply filter_eq_self.mpr
  intro f hf
  have hbase : f.1 ∈ keys base := mem_map.mpr ⟨f, hf, rfl⟩
  have hfresh : f.1 ∉ keys extra := fun hextra => h f.1 hextra hbase
  simpa using hfresh

theorem field_assign {base extra : Fields} {key : String} (h : key.toList ∉ keys extra) :
    field (assign base extra) key = field base key := by
  have hextra : extra.lookup key.toList = none := by
    apply lookup_eq_none_iff.mpr
    intro f hf
    have hne : key.toList ≠ f.1 := by
      intro hsame
      exact h (mem_map.mpr ⟨f, hf, hsame.symm⟩)
    simpa using hne
  unfold field assign
  induction base with
  | nil => simpa using hextra
  | cons f rest ih =>
    obtain ⟨k, v⟩ := f
    by_cases hkey : key.toList = k
    · subst hkey
      rw [filter_cons_of_pos (by simpa using h)]
      simp
    have hbeq : (key.toList == k) = false := by simpa using hkey
    rw [lookup_cons, hbeq]
    by_cases hkeep : k ∈ keys extra
    · rw [filter_cons_of_neg (by simpa using hkeep)]
      exact ih
    rw [filter_cons_of_pos (by simpa using hkeep), cons_append, lookup_cons, hbeq]
    exact ih

theorem member_object_nil (key : String) : member (object []) key = none := rfl

theorem member_object_cons (k : String) (v : Json) (rest : List (String × Json)) (key : String) :
    member (object ((k, v) :: rest)) key = if key = k then some v else member (object rest) key := by
  simp only [member, object, field, map_cons, lookup_cons]
  by_cases hkey : key = k
  · subst hkey
    simp
  have hne : (key.toList == k.toList) = false := by
    simpa [String.toList_inj] using hkey
  simp [hkey, hne]

theorem member_object_append (xs ys : List (String × Json)) (key : String) :
    member (object (xs ++ ys)) key = (member (object xs) key).or (member (object ys) key) := by
  simp only [member, object, field, map_append, lookup_append]

@[simp] theorem present_object (fields : List (String × Json)) :
    present (some (object fields)) = some (object fields) := rfl

@[simp] theorem read_object (fields : List (String × Json)) (key : String) :
    read (some (object fields)) key = some (member (object fields) key) := rfl

@[simp] theorem readOptional_object (fields : List (String × Json)) (key : String) :
    readOptional (some (object fields)) key = member (object fields) key := rfl

@[simp] theorem readOptional_null (key : String) : readOptional (some .null) key = none := rfl

@[simp] theorem nullish_text (t : Text) (other : Json) : nullish (some (text t)) other = text t := rfl

@[simp] theorem nullish_none (other : Json) : nullish none other = other := rfl

@[simp] theorem truthy_object (fields : List (String × Json)) : truthy (some (object fields)) = true := rfl

@[simp] theorem strictEq_object_null (fields : List (String × Json)) :
    strictEq (some (object fields)) (some .null) = false := rfl

@[simp] theorem strictEq_text (a b : Text) : strictEq (some (text a)) (some (text b)) = decide (a = b) :=
  rfl

@[simp] theorem strictEq_number (a b : Text) :
    strictEq (some (.number a)) (some (.number b)) = decide (a = b) := rfl

@[simp] theorem strictEq_null : strictEq (some .null) (some .null) = true := rfl

theorem strictEq_text_iff {v : Value} {t : Text} :
    strictEq v (some (text t)) = true ↔ v = some (text t) := by
  constructor
  · intro h
    unfold strictEq text at h
    split at h <;> simp_all [text]
  rintro rfl
  simp

theorem eq_of_strictEq {a b : Value} (h : strictEq a b = true) : a = b := by
  unfold strictEq at h
  split at h
  · rfl
  · rfl
  · rw [of_decide_eq_true h]
  · rw [of_decide_eq_true h]
  · rw [of_decide_eq_true h]
  cases h

end JsObject
