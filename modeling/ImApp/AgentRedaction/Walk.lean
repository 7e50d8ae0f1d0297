import ImApp.AgentRedaction.Patterns

/-!
The walk through a value. It opens eight containers inside each other; what lies deeper
comes back as it is. JSON values share no containers, so that none is met twice.
-/

namespace ImApp.AgentRedaction

open List Option
open JsonText (Text Json)

/-- `levels` containers may still be opened. -/
def redact : Nat → Text → Json → Json
  | levels, key, input => if secretKey.test key then .string marker else match levels, input with
      | _, .string text => .string (redactAgentSensitiveText text)
      | levels + 1, .array items => .array (items.map (redact levels []))
      | levels + 1, .object fields =>
        .object (fields.map fun field => (field.1, redact levels field.1 field.2))
      | _, input => input

def redactAgentSensitiveValue (value : Json) : Json := redact 8 [] value

/-- The child with this number and its key, which is empty in an array. -/
def child : Json → Nat → Option (Text × Json)
  | .array items, i => items[i]?.map fun item => ([], item)
  | .object fields, i => fields[i]?
  | _, _ => none

/-- The keys on the way to a place and the value there. -/
def place : Json → List Nat → Option (List Text × Json)
  | value, [] => some ([], value)
  | value, i :: path => match child value i with
    | none => none
    | some (key, inner) => (place inner path).map fun (keys, found) => (key :: keys, found)

/-- No key on the way is secret. -/
def Plain (keys : List Text) : Prop := ∀ key ∈ keys, secretKey.test key = false

variable {key : Text}

theorem redact_secret (h : secretKey.test key = true) (levels : Nat) (value : Json) :
    redact levels key value = .string marker := by
  unfold redact
  rw [if_pos h]

theorem redact_plain (h : secretKey.test key = false) (levels : Nat) (value : Json) :
    redact levels key value = redact levels [] value := by
  have hempty : secretKey.test [] = false := by decide
  unfold redact
  rw [h, hempty]

theorem redact_string (levels : Nat) (text : Text) :
    redact levels [] (.string text) = .string (redactAgentSensitiveText text) := by
  cases levels <;> rfl

theorem redact_array (levels : Nat) (items : List Json) :
    redact (levels + 1) [] (.array items) = .array (items.map (redact levels [])) := rfl

theorem redact_object (levels : Nat) (fields : List (Text × Json)) :
    redact (levels + 1) [] (.object fields) =
      .object (fields.map fun field => (field.1, redact levels field.1 field.2)) := rfl

/-- A number, a boolean or null. -/
def isOtherScalar : Json → Bool
  | .null | .bool _ | .number _ => true
  | _ => false

def isContainer : Json → Bool
  | .array _ | .object _ => true
  | _ => false

variable {value found : Json}

theorem redact_other (h : isOtherScalar value = true) (levels : Nat) :
    redact levels [] value = value := by
  cases value with
  | null | bool b | number literal => cases levels <;> rfl
  | string text | array items | object fields => cases h

theorem redact_deep (h : isContainer value = true) : redact 0 [] value = value := by
  cases value with
  | array items | object fields => rfl
  | null | bool b | number literal | string text => cases h

theorem child_redact (levels : Nat) (value : Json) (i : Nat) :
    child (redact (levels + 1) [] value) i =
      (child value i).map fun field => (field.1, redact levels field.1 field.2) := by
  cases value with
  | array items =>
    rw [redact_array]
    simp [child, Function.comp_def]
  | object fields =>
    rw [redact_object]
    simp [child]
  | string text => rw [redact_string]; rfl
  | null | bool b | number literal => rfl

theorem child_string (text : Text) (i : Nat) : child (.string text) i = none := rfl

theorem place_cons (value : Json) (i : Nat) (path : List Nat) :
    place value (i :: path) = (child value i).bind fun field =>
      (place field.2 path).map fun found => (field.1 :: found.1, found.2) := by
  rw [place]
  cases child value i <;> rfl

variable {i levels : Nat} {path : List Nat} {keys : List Text}

theorem place_inv (h : place value (i :: path) = some (keys, found)) :
    ∃ key inner more, child value i = some (key, inner) ∧ place inner path = some (more, found) ∧
      keys = key :: more := by
  rw [place_cons] at h
  obtain ⟨⟨key, inner⟩, hchild, hinner⟩ := bind_eq_some_iff.mp h
  obtain ⟨⟨more, found'⟩, hfound, hsame⟩ := map_eq_some_iff.mp hinner
  cases hsame
  exact ⟨key, inner, more, hchild, hfound, rfl⟩

theorem place_redact_inv
    (h : place (redact (levels + 1) key value) (i :: path) = some (keys, found)) :
    ∃ name inner more, child value i = some (name, inner) ∧
      place (redact levels name inner) path = some (more, found) ∧ keys = name :: more := by
  cases hkey : secretKey.test key with
  | true =>
    rw [redact_secret hkey, place_cons, child_string] at h
    cases h
  | false =>
    rw [redact_plain hkey] at h
    obtain ⟨name, inner, more, hchild, hfound, rfl⟩ := place_inv h
    rw [child_redact] at hchild
    obtain ⟨⟨name', below⟩, hbelow, hsame⟩ := map_eq_some_iff.mp hchild
    cases hsame
    exact ⟨name', below, more, hbelow, hfound, rfl⟩

theorem place_redact (hplace : place value path = some (keys, found)) (hpath : path.length ≤ levels)
    (hkeys : Plain keys) : place (redact levels [] value) path =
      some (keys, redact (levels - path.length) [] found) := by
  induction path generalizing levels value keys with
  | nil =>
    cases hplace
    rfl
  | cons i path ih =>
    obtain ⟨levels, rfl⟩ := Nat.exists_eq_succ_of_ne_zero (Nat.ne_zero_of_lt hpath)
    obtain ⟨key, inner, more, hchild, hfound, rfl⟩ := place_inv hplace
    have hrest := ih hfound (Nat.le_of_succ_le_succ hpath)
      fun k hk => hkeys k (mem_cons_of_mem _ hk)
    rw [place_cons, child_redact, hchild, map_some, bind_some,
      redact_plain (hkeys key mem_cons_self), hrest]
    simp

theorem isContainer_of_child {field : Text × Json}
    (h : child value i = some field) : isContainer value = true := by
  cases value with
  | array items | object fields => rfl
  | null | bool b | number literal | string text => cases h

theorem place_deep (hplace : place value path = some (keys, found)) (hpath : levels < path.length)
    (hkeys : Plain (keys.take levels)) :
    place (redact levels [] value) path = some (keys, found) := by
  induction path generalizing levels value keys with
  | nil => cases hpath
  | cons i path ih =>
    obtain ⟨key, inner, more, hchild, hfound, rfl⟩ := place_inv hplace
    cases levels with
    | zero => rw [redact_deep (isContainer_of_child hchild), hplace]
    | succ levels =>
      rw [take_succ_cons] at hkeys
      have hrest := ih hfound (Nat.lt_of_succ_lt_succ hpath)
        fun k hk => hkeys k (mem_cons_of_mem _ hk)
      rw [place_cons, child_redact, hchild, map_some, bind_some,
        redact_plain (hkeys key mem_cons_self), hrest]
      rfl

theorem secret_marked {last : Text} (hplace : place (redact levels key value) path = some (keys, found))
    (hpath : path.length ≤ levels) (hlast : keys.getLast? = some last)
    (hsecret : secretKey.test last = true) : found = .string marker := by
  induction path generalizing levels key value keys with
  | nil =>
    cases hplace
    cases hlast
  | cons i path ih =>
    obtain ⟨levels, rfl⟩ := Nat.exists_eq_succ_of_ne_zero (Nat.ne_zero_of_lt hpath)
    obtain ⟨name, inner, more, -, hfound, rfl⟩ := place_redact_inv hplace
    cases more with
    | nil =>
      have hname : name = last := some.inj hlast
      rw [hname, redact_secret hsecret] at hfound
      cases path with
      | nil => exact (Prod.mk.inj (some.inj hfound)).2.symm
      | cons j path =>
        rw [place_cons, child_string] at hfound
        cases hfound
    | cons k more =>
      rw [getLast?_cons_cons] at hlast
      exact ih hfound (Nat.le_of_succ_le_succ hpath) hlast

/-- A string of the result is the marker, or the redacted string of the same place. -/
theorem string_redacted {text : Text}
    (hplace : place (redact levels key value) path = some (keys, .string text))
    (hpath : path.length ≤ levels) :
    text = marker ∨ ∃ original, place value path = some (keys, .string original) ∧
      text = redactAgentSensitiveText original := by
  induction path generalizing levels key value keys with
  | nil =>
    obtain ⟨rfl, htext⟩ := Prod.mk.inj (some.inj hplace)
    cases hkey : secretKey.test key with
    | true =>
      rw [redact_secret hkey] at htext
      exact .inl (Json.string.inj htext).symm
    | false =>
      rw [redact_plain hkey] at htext
      right
      cases value with
      | string original =>
        rw [redact_string] at htext
        exact ⟨original, rfl, (Json.string.inj htext).symm⟩
      | null | bool b | number literal | array items | object fields => cases levels <;> cases htext
  | cons i path ih =>
    obtain ⟨levels, rfl⟩ := Nat.exists_eq_succ_of_ne_zero (Nat.ne_zero_of_lt hpath)
    obtain ⟨name, inner, more, hchild, hfound, rfl⟩ := place_redact_inv hplace
    rcases ih hfound (Nat.le_of_succ_le_succ hpath) with hmarker | ⟨original, horiginal, htext⟩
    · exact .inl hmarker
    right
    refine ⟨original, ?_, htext⟩
    rw [place_cons, hchild, bind_some, horiginal]
    rfl

theorem text_marker : redactAgentSensitiveText marker = marker := by decide +kernel

/-- Every string of the value that is reached by the walk is redacted once for all. -/
def Settled (levels : Nat) (value : Json) : Prop :=
  ∀ path keys text, path.length ≤ levels → Plain keys →
    place value path = some (keys, .string text) →
    redactAgentSensitiveText (redactAgentSensitiveText text) = redactAgentSensitiveText text

theorem settled_child {inner : Json}
    (h : Settled (levels + 1) value) (hchild : child value i = some (key, inner))
    (hkey : secretKey.test key = false) : Settled levels inner := by
  intro path keys text hpath hkeys hplace
  apply h (i :: path) (key :: keys) text (Nat.succ_le_succ hpath)
  · exact forall_mem_cons.mpr ⟨hkey, hkeys⟩
  rw [place_cons, hchild, bind_some, hplace]
  rfl

theorem redact_redact (h : secretKey.test key = false → Settled levels value) :
    redact levels key (redact levels key value) = redact levels key value := by
  induction levels generalizing key value with
  | zero =>
    cases hkey : secretKey.test key with
    | true => rw [redact_secret hkey, redact_secret hkey]
    | false =>
      rw [redact_plain hkey, redact_plain hkey]
      cases value with
      | string text =>
        rw [redact_string, redact_string, h hkey [] [] text (Nat.zero_le _) (by simp [Plain]) rfl]
      | null | bool b | number literal | array items | object fields => rfl
  | succ levels ih =>
    cases hkey : secretKey.test key with
    | true => rw [redact_secret hkey, redact_secret hkey]
    | false =>
      rw [redact_plain hkey, redact_plain hkey]
      cases value with
      | string text =>
        rw [redact_string, redact_string, h hkey [] [] text (Nat.zero_le _) (by simp [Plain]) rfl]
      | null | bool b | number literal => rfl
      | array items =>
        rw [redact_array, redact_array, List.map_map]
        congr 1
        apply map_congr_left
        intro item hitem
        obtain ⟨i, hi⟩ := getElem?_of_mem hitem
        apply ih
        intro hempty
        apply settled_child (i := i) (h hkey) _ hempty
        simp [child, hi]
      | object fields =>
        rw [redact_object, redact_object, List.map_map]
        congr 1
        apply map_congr_left
        intro field hfield
        obtain ⟨i, hi⟩ := getElem?_of_mem hfield
        have hsame : redact levels field.1 (redact levels field.1 field.2) =
            redact levels field.1 field.2 := by
          apply ih
          intro hname
          exact settled_child (i := i) (h hkey) hi hname
        simp [hsame]

theorem settled_of_same (h : redact levels [] (redact levels [] value) = redact levels [] value) :
    Settled levels value := by
  intro path keys text hpath hkeys hplace
  have honce := place_redact hplace hpath hkeys
  rw [redact_string] at honce
  have htwice := place_redact honce hpath hkeys
  rw [h, honce, redact_string] at htwice
  exact (Json.string.inj (Prod.mk.inj (some.inj htwice)).2).symm

end ImApp.AgentRedaction
