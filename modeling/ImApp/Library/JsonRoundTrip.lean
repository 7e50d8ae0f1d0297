import ImApp.Library.JsonText
import Mathlib.Data.List.Sort
import Mathlib.Data.List.Lex

/-!
What `decode` reads of a text that `encode` wrote. A value is `Normal` when its
numbers are number literals and its objects have their keys in strict order; a
decoded value is normal, and a normal value is read back as it was.
-/

namespace JsonText

open List Option

/-- `rest` cannot continue a number literal. -/
def Stops (rest : Text) : Prop :=
  ∀ c ∈ rest.head?, c.isDigit = false ∧ c ≠ '.' ∧ c ≠ 'e' ∧ c ≠ 'E' ∧ c ≠ '+' ∧ c ≠ '-'

theorem stops_nil : Stops [] := by
  intro c hc
  cases hc

variable {value : Json} {fields : List (Text × Json)} {rest : Text} {depth : Nat} {c : Char}

theorem stops_cons (hc : c = ',' ∨ c = ']' ∨ c = '}') : Stops (c :: rest) := by
  intro d hd
  cases hd
  rcases hc with rfl | rfl | rfl <;> decide

def withRest (rest : Text) (scanned : Text × Text) : Text × Text :=
  (scanned.1, scanned.2 ++ rest)

theorem takeWhile_append_stop {p : Char → Bool} (cs : Text)
    (hrest : ∀ c ∈ rest.head?, p c = false) : (cs ++ rest).takeWhile p = cs.takeWhile p ∧
      (cs ++ rest).dropWhile p = cs.dropWhile p ++ rest := by
  induction cs with
  | nil =>
    cases rest with
    | nil => exact ⟨rfl, rfl⟩
    | cons c rest => simp [hrest c rfl]
  | cons c cs ih =>
    cases hc : p c with
    | true => simp [hc, ih.1, ih.2]
    | false => simp [hc]

theorem digits_append (cs : Text) (hrest : Stops rest) :
    (cs ++ rest).takeWhile Char.isDigit = cs.takeWhile Char.isDigit ∧
      (cs ++ rest).dropWhile Char.isDigit = cs.dropWhile Char.isDigit ++ rest :=
  takeWhile_append_stop cs (fun c hc => (hrest c hc).1)

theorem scanDigits_append (cs : Text) (hrest : Stops rest) :
    scanDigits (cs ++ rest) = (scanDigits cs).map (withRest rest) := by
  simp only [scanDigits, digits_append cs hrest]
  split <;> simp [withRest]

theorem scanInteger_append (cs : Text) (hrest : Stops rest) :
    scanInteger (cs ++ rest) = (scanInteger cs).map (withRest rest) := by
  cases cs with
  | nil =>
    cases rest with
    | nil => rfl
    | cons c rest =>
      have hdigit := (hrest c rfl).1
      have hzero : c ≠ '0' := by
        rintro rfl
        exact absurd hdigit (by decide)
      simp [scanInteger, hdigit, hzero]
  | cons c cs =>
    simp only [scanInteger, cons_append, digits_append cs hrest]
    split
    · rfl
    split <;> simp [withRest]

theorem scanFraction_append (cs : Text) (hrest : Stops rest) :
    scanFraction (cs ++ rest) = (scanFraction cs).map (withRest rest) := by
  cases cs with
  | nil =>
    cases rest with
    | nil => rfl
    | cons c rest => simp [scanFraction, (hrest c rfl).2.1, withRest]
  | cons c cs =>
    simp only [scanFraction, cons_append, scanDigits_append cs hrest]
    split
    · cases scanDigits cs <;> simp [withRest]
    rfl

theorem scanSign_append (cs : Text) (hrest : Stops rest) :
    scanSign (cs ++ rest) = withRest rest (scanSign cs) := by
  cases cs with
  | nil =>
    cases rest with
    | nil => rfl
    | cons c rest =>
      obtain ⟨-, -, -, -, hplus, hminus⟩ := hrest c rfl
      simp [scanSign, hplus, hminus, withRest]
  | cons c cs =>
    simp only [scanSign, cons_append]
    split <;> rfl

theorem scanExponent_append (cs : Text) (hrest : Stops rest) :
    scanExponent (cs ++ rest) = (scanExponent cs).map (withRest rest) := by
  cases cs with
  | nil =>
    cases rest with
    | nil => rfl
    | cons c rest =>
      obtain ⟨-, -, he, hE, -⟩ := hrest c rfl
      simp [scanExponent, he, hE, withRest]
  | cons c cs =>
    simp only [scanExponent, cons_append, scanSign_append cs hrest]
    split
    · simp only [withRest, scanDigits_append _ hrest]
      cases scanDigits (scanSign cs).2 <;> simp [withRest]
    rfl

theorem scanMinus_append (cs : Text) (hrest : Stops rest) :
    scanMinus (cs ++ rest) = withRest rest (scanMinus cs) := by
  cases cs with
  | nil =>
    cases rest with
    | nil => rfl
    | cons c rest => simp [scanMinus, (hrest c rfl).2.2.2.2.2, withRest]
  | cons c cs =>
    simp only [scanMinus, cons_append]
    split <;> rfl

theorem scanNumber_append (cs : Text) (hrest : Stops rest) :
    scanNumber (cs ++ rest) = (scanNumber cs).map (withRest rest) := by
  simp only [scanNumber, scanMinus_append cs hrest, withRest, scanInteger_append _ hrest]
  cases scanInteger (scanMinus cs).2 with
  | none => rfl
  | some integer =>
    simp only [map_some, bind_eq_bind, bind_some, withRest, scanFraction_append _ hrest]
    cases scanFraction integer.2 with
    | none => rfl
    | some fraction =>
      simp only [map_some, bind_some, withRest, scanExponent_append _ hrest]
      cases scanExponent fraction.2 <;> rfl

theorem takeWhile_truncate {p : Char → Bool} {cs kept dropped : Text}
    (h : cs.dropWhile p = kept ++ dropped) : (cs.takeWhile p ++ kept).takeWhile p = cs.takeWhile p ∧
      (cs.takeWhile p ++ kept).dropWhile p = kept := by
  induction cs with
  | nil =>
    obtain ⟨rfl, rfl⟩ : kept = [] ∧ dropped = [] := by simpa using h.symm
    exact ⟨rfl, rfl⟩
  | cons c cs ih =>
    cases hc : p c with
    | true =>
      rw [dropWhile_cons_of_pos hc] at h
      simp [hc, ih h]
    | false =>
      rw [dropWhile_cons_of_neg (by simp [hc])] at h
      cases kept with
      | nil => simp [hc]
      | cons d kept =>
        obtain ⟨rfl, -⟩ := List.cons.inj h
        simp [hc]

theorem scanDigits_truncate {cs digits kept dropped : Text}
    (h : scanDigits cs = some (digits, kept ++ dropped)) :
    scanDigits (digits ++ kept) = some (digits, kept) := by
  simp only [scanDigits] at h
  split at h
  · cases h
  case isFalse hsome =>
    obtain ⟨rfl, hrest⟩ := Prod.mk.inj (some.inj h)
    obtain ⟨htake, hdrop⟩ := takeWhile_truncate hrest
    rw [scanDigits, htake, hdrop, if_neg hsome]

theorem scanInteger_truncate {cs integer kept dropped : Text}
    (h : scanInteger cs = some (integer, kept ++ dropped)) :
    scanInteger (integer ++ kept) = some (integer, kept) := by
  cases cs with
  | nil => cases h
  | cons c cs =>
    simp only [scanInteger] at h
    split at h
    · cases h
      rfl
    case isFalse hzero =>
      split at h
      case isTrue hdigit =>
        obtain ⟨rfl, hrest⟩ := Prod.mk.inj (some.inj h)
        obtain ⟨htake, hdrop⟩ := takeWhile_truncate hrest
        simp [scanInteger, hzero, hdigit, htake, hdrop]
      · cases h

theorem scanFraction_truncate {cs fraction kept dropped : Text}
    (h : scanFraction cs = some (fraction, kept ++ dropped)) :
    scanFraction (fraction ++ kept) = some (fraction, kept) := by
  cases cs with
  | nil =>
    obtain ⟨rfl, hkept⟩ := Prod.mk.inj (some.inj h)
    obtain ⟨rfl, -⟩ := append_eq_nil_iff.mp hkept.symm
    rfl
  | cons c cs =>
    simp only [scanFraction] at h
    split at h
    case isTrue hdot =>
      obtain ⟨⟨digits, rest⟩, hdigits, hpair⟩ := map_eq_some_iff.mp h
      cases hpair
      simp [scanFraction, scanDigits_truncate hdigits]
    case isFalse hdot =>
      obtain ⟨rfl, hrest⟩ := Prod.mk.inj (some.inj h)
      cases kept with
      | nil => rfl
      | cons d kept =>
        obtain ⟨rfl, -⟩ := List.cons.inj hrest
        simp [scanFraction, hdot]

theorem scanSign_cases (cs : Text) :
    (scanSign cs).1 = [] ∨ (scanSign cs).1 = ['+'] ∨ (scanSign cs).1 = ['-'] := by
  cases cs with
  | nil => exact .inl rfl
  | cons c cs =>
    simp only [scanSign]
    split
    case isTrue hsign =>
      simp only [Bool.or_eq_true, decide_eq_true_eq] at hsign
      rcases hsign with rfl | rfl
      · exact .inr (.inl rfl)
      exact .inr (.inr rfl)
    · exact .inl rfl

theorem scanDigits_eq {cs digits rest : Text} (h : scanDigits cs = some (digits, rest)) :
    digits ++ rest = cs ∧ ∃ c ∈ digits.head?, c.isDigit := by
  simp only [scanDigits] at h
  split at h
  · cases h
  case isFalse hsome =>
    cases h
    refine ⟨takeWhile_append_dropWhile, ?_⟩
    cases cs with
    | nil => exact absurd rfl hsome
    | cons c cs =>
      cases hc : c.isDigit with
      | true => exact ⟨c, by simp [hc], hc⟩
      | false => simp [hc] at hsome

theorem scanSign_truncate {cs digits rest : Text}
    (hdigits : scanDigits (scanSign cs).2 = some (digits, rest)) (kept : Text) :
    scanSign ((scanSign cs).1 ++ (digits ++ kept)) = ((scanSign cs).1, digits ++ kept) := by
  obtain ⟨-, d, hd, hdigit⟩ := scanDigits_eq hdigits
  obtain ⟨tail, rfl⟩ : ∃ tail, digits = d :: tail := by
    cases digits with
    | nil => cases hd
    | cons c tail =>
      obtain rfl : c = d := by simpa using hd
      exact ⟨tail, rfl⟩
  have hplus : d ≠ '+' := by
    rintro rfl
    exact absurd hdigit (by decide)
  have hminus : d ≠ '-' := by
    rintro rfl
    exact absurd hdigit (by decide)
  rcases scanSign_cases cs with hsign | hsign | hsign <;> rw [hsign]
  · simp [scanSign, hplus, hminus]
  · rfl
  rfl

theorem scanFraction_eq {cs fraction rest : Text} (h : scanFraction cs = some (fraction, rest)) :
    fraction ++ rest = cs := by
  cases cs with
  | nil =>
    cases h
    rfl
  | cons c cs =>
    simp only [scanFraction] at h
    split at h
    case isTrue hdot =>
      obtain ⟨⟨digits, after⟩, hdigits, hpair⟩ := map_eq_some_iff.mp h
      cases hpair
      rw [cons_append, (scanDigits_eq hdigits).1, hdot]
    · cases h
      rfl

theorem scanSign_eq (cs : Text) : (scanSign cs).1 ++ (scanSign cs).2 = cs := by
  cases cs with
  | nil => rfl
  | cons c cs =>
    simp only [scanSign]
    split <;> rfl

theorem scanExponent_eq {cs exponent rest : Text} (h : scanExponent cs = some (exponent, rest)) :
    exponent ++ rest = cs := by
  cases cs with
  | nil =>
    cases h
    rfl
  | cons c cs =>
    simp only [scanExponent] at h
    split at h
    · obtain ⟨⟨digits, after⟩, hdigits, hpair⟩ := map_eq_some_iff.mp h
      cases hpair
      simp [(scanDigits_eq hdigits).1, scanSign_eq]
    cases h
    rfl

theorem scanExponent_truncate {cs exponent kept dropped : Text}
    (h : scanExponent cs = some (exponent, kept ++ dropped)) :
    scanExponent (exponent ++ kept) = some (exponent, kept) := by
  cases cs with
  | nil =>
    obtain ⟨rfl, hkept⟩ := Prod.mk.inj (some.inj h)
    obtain ⟨rfl, -⟩ := append_eq_nil_iff.mp hkept.symm
    rfl
  | cons c cs =>
    simp only [scanExponent] at h
    split at h
    case isTrue hmark =>
      obtain ⟨⟨digits, rest⟩, hdigits, hpair⟩ := map_eq_some_iff.mp h
      cases hpair
      have hsign := scanSign_truncate hdigits kept
      simp [scanExponent, hmark, hsign, scanDigits_truncate hdigits]
    case isFalse hmark =>
      obtain ⟨rfl, hrest⟩ := Prod.mk.inj (some.inj h)
      cases kept with
      | nil => rfl
      | cons d kept =>
        obtain ⟨rfl, -⟩ := List.cons.inj hrest
        simp [scanExponent, hmark]

theorem scanMinus_cases (cs : Text) : (scanMinus cs).1 = [] ∨ (scanMinus cs).1 = ['-'] := by
  cases cs with
  | nil => exact .inl rfl
  | cons c cs =>
    simp only [scanMinus]
    split
    case isTrue hminus => exact .inr (by rw [hminus])
    · exact .inl rfl

theorem scanInteger_digit {cs integer rest : Text} (h : scanInteger cs = some (integer, rest)) :
    ∃ c tail, integer = c :: tail ∧ c.isDigit = true := by
  cases cs with
  | nil => cases h
  | cons c cs =>
    simp only [scanInteger] at h
    split at h
    · cases h
      exact ⟨'0', [], rfl, by decide⟩
    split at h
    case isTrue hdigit =>
      cases h
      exact ⟨c, _, rfl, hdigit⟩
    · cases h

def IsNumber (literal : Text) : Prop := scanNumber literal = some (literal, [])

theorem scanMinus_eq (cs : Text) : (scanMinus cs).1 ++ (scanMinus cs).2 = cs := by
  cases cs with
  | nil => rfl
  | cons c cs =>
    simp only [scanMinus]
    split <;> rfl

theorem scanInteger_eq {cs integer rest : Text} (h : scanInteger cs = some (integer, rest)) :
    integer ++ rest = cs := by
  cases cs with
  | nil => cases h
  | cons c cs =>
    simp only [scanInteger] at h
    split at h
    case isTrue hzero =>
      cases h
      rw [hzero]
      rfl
    · split at h
      · cases h
        rw [cons_append, takeWhile_append_dropWhile]
      cases h

theorem scanNumber_parts {cs literal rest : Text} (h : scanNumber cs = some (literal, rest)) :
    ∃ integer fraction exponent, literal = (scanMinus cs).1 ++ (integer ++ (fraction ++ exponent)) ∧
      scanInteger (scanMinus cs).2 = some (integer, fraction ++ (exponent ++ rest)) ∧
      scanFraction (fraction ++ (exponent ++ rest)) = some (fraction, exponent ++ rest) ∧
      scanExponent (exponent ++ rest) = some (exponent, rest) := by
  simp only [scanNumber, bind_eq_bind, bind_eq_some_iff, Prod.exists] at h
  obtain ⟨integer, afterInteger, hinteger, fraction, afterFraction, hfraction, exponent, after,
    hexponent, hres⟩ := h
  cases hres
  obtain rfl := scanExponent_eq hexponent
  obtain rfl := scanFraction_eq hfraction
  exact ⟨integer, fraction, exponent, by simp only [append_assoc], hinteger, hfraction, hexponent⟩

theorem scanNumber_eq {cs literal rest : Text} (h : scanNumber cs = some (literal, rest)) :
    literal ++ rest = cs := by
  obtain ⟨integer, fraction, exponent, rfl, hinteger, -, -⟩ := scanNumber_parts h
  have hcs := scanMinus_eq cs
  rw [← scanInteger_eq hinteger] at hcs
  refine Eq.trans ?_ hcs
  simp only [append_assoc]

theorem scanNumber_truncate {cs literal kept dropped : Text}
    (h : scanNumber cs = some (literal, kept ++ dropped)) :
    scanNumber (literal ++ kept) = some (literal, kept) := by
  obtain ⟨integer, fraction, exponent, rfl, hinteger, hfraction, hexponent⟩ := scanNumber_parts h
  have hinteger' : scanInteger (integer ++ (fraction ++ (exponent ++ kept))) =
      some (integer, fraction ++ (exponent ++ kept)) := by
    refine @scanInteger_truncate (scanMinus cs).2 _ _ dropped ?_
    rw [hinteger]
    simp only [append_assoc]
  have hfraction' : scanFraction (fraction ++ (exponent ++ kept)) =
      some (fraction, exponent ++ kept) := by
    refine @scanFraction_truncate (fraction ++ (exponent ++ (kept ++ dropped))) _ _ dropped ?_
    rw [hfraction]
    simp only [append_assoc]
  have hexponent' : scanExponent (exponent ++ kept) = some (exponent, kept) :=
    scanExponent_truncate hexponent
  obtain ⟨d, tail, rfl, hdigit⟩ := scanInteger_digit hinteger
  have hminus : d ≠ '-' := by
    rintro rfl
    exact absurd hdigit (by decide)
  simp only [scanNumber, append_assoc]
  rcases scanMinus_cases cs with hsign | hsign <;> rw [hsign] <;> simp_all [scanMinus]

theorem scanNumber_literal {cs literal rest : Text} (h : scanNumber cs = some (literal, rest)) :
    IsNumber literal := by
  have htruncated : scanNumber (literal ++ []) = some (literal, []) := scanNumber_truncate h
  rwa [append_nil] at htruncated

theorem hexValue_hexDigit (n : Nat) (hn : n < 16) : hexValue (hexDigit n) = some n :=
  (by decide : ∀ n < 16, hexValue (hexDigit n) = some n) n hn

theorem decodeUnits_code (n : Nat) (units : List StringUnit)
    (hhigh : isHighSurrogate n = false) (hlow : isLowSurrogate n = false) :
    decodeUnits (.code n :: units) = Char.ofNat n :: decodeUnits units := by
  have hcode : codeChar n = Char.ofNat n := by simp [codeChar, hhigh, hlow]
  cases units with
  | nil => simp [decodeUnits, hcode]
  | cons head units =>
    cases head with
    | char c => simp [decodeUnits, hcode]
    | code m => simp [decodeUnits, hhigh, hcode]

/-- The units `units` of a literal that spells `text`, in front of `rest`. -/
def Spells (text literal rest : Text) : Prop :=
  ∃ units, scanUnits literal = some (units, rest) ∧ decodeUnits units = text

theorem Spells.char {text literal rest : Text} (h : Spells text literal rest) (c : Char)
    (hquote : c ≠ '"') (hslash : c ≠ '\\') (hcontrol : ¬ c.toNat < 0x20) :
    Spells (c :: text) (c :: literal) rest := by
  obtain ⟨units, hscan, rfl⟩ := h
  exact ⟨.char c :: units, by simp [scanUnits, hslash, hcontrol, hscan], rfl⟩

theorem Spells.escape {text literal rest : Text} (h : Spells text literal rest) {mark c : Char}
    (hmark : mark ≠ 'u') (hescape : simpleEscape mark = some c) :
    Spells (c :: text) ('\\' :: mark :: literal) rest := by
  obtain ⟨units, hscan, rfl⟩ := h
  exact ⟨.char c :: units, by simp [scanUnits, hmark, hescape, hscan], rfl⟩

theorem Spells.code {text literal rest : Text} (h : Spells text literal rest) {a b c d : Char}
    {i j k l : Nat} (ha : hexValue a = some i) (hb : hexValue b = some j)
    (hc : hexValue c = some k) (hd : hexValue d = some l)
    (hhigh : isHighSurrogate (((i * 16 + j) * 16 + k) * 16 + l) = false)
    (hlow : isLowSurrogate (((i * 16 + j) * 16 + k) * 16 + l) = false) :
    Spells (Char.ofNat (((i * 16 + j) * 16 + k) * 16 + l) :: text)
      ('\\' :: 'u' :: a :: b :: c :: d :: literal) rest := by
  obtain ⟨units, hscan, rfl⟩ := h
  refine ⟨.code (((i * 16 + j) * 16 + k) * 16 + l) :: units, ?_, decodeUnits_code _ _ hhigh hlow⟩
  simp [scanUnits, ha, hb, hc, hd, hscan]

theorem Spells.unit {text literal rest : Text} (h : Spells text literal rest) (c : Char)
    {a b d e : Char} {i j k l : Nat} (ha : hexValue a = some i) (hb : hexValue b = some j)
    (hd : hexValue d = some k) (he : hexValue e = some l)
    (hvalue : ((i * 16 + j) * 16 + k) * 16 + l = c.toNat) (hsmall : c.toNat < 0xd800) :
    Spells (c :: text) ('\\' :: 'u' :: a :: b :: d :: e :: literal) rest := by
  have hcode := h.code ha hb hd he
  rw [hvalue, Char.ofNat_toNat] at hcode
  apply hcode
  · simp [isHighSurrogate]
    omega
  simp [isLowSurrogate]
  omega

theorem Spells.escapeChar {text literal rest : Text} (h : Spells text literal rest) (c : Char) :
    Spells (c :: text) (escapeChar c ++ literal) rest := by
  unfold JsonText.escapeChar
  split
  case isTrue hc => exact h.escape (by decide) (by rw [hc]; rfl)
  case isFalse hquote =>
  split
  case isTrue hc => exact h.escape (by decide) (by rw [hc]; rfl)
  case isFalse hslash =>
  iterate 5
    split
    case isTrue hc => exact h.escape (by decide) (by rw [hc]; rfl)
  split
  case isTrue hascii =>
    have hsmall : c.toNat < 0x80 := by
      simp only [Bool.or_eq_true, decide_eq_true_eq] at hascii
      rcases hascii with ((hlow | rfl) | rfl) | rfl
      · omega
      · decide
      · decide
      decide
    exact h.unit c rfl rfl (hexValue_hexDigit _ (by omega)) (hexValue_hexDigit _ (by omega))
      (by omega) (by omega)
  case isFalse hprintable =>
  split
  case isTrue hc => exact h.unit c rfl rfl rfl rfl hc.symm (by omega)
  split
  case isTrue hc => exact h.unit c rfl rfl rfl rfl hc.symm (by omega)
  case isFalse =>
    apply h.char c hquote hslash
    intro hcontrol
    simp [hcontrol] at hprintable

/-- A literal with these escapes spells the characters that were escaped. -/
def Faithful (escape : Char → Text) : Prop :=
  ∀ (c : Char) {text literal rest : Text}, Spells text literal rest →
    Spells (c :: text) (escape c ++ literal) rest

theorem faithful_escapeChar : Faithful escapeChar := fun c _ _ _ h => h.escapeChar c

variable {escape : Char → Text}

theorem spells_flatMap (hescape : Faithful escape) (text rest : Text) :
    Spells text (text.flatMap escape ++ '"' :: rest) rest := by
  induction text with
  | nil => exact ⟨[], rfl, rfl⟩
  | cons c text ih =>
    rw [flatMap_cons, append_assoc]
    exact hescape c ih

theorem scanString_encode (hescape : Faithful escape) (text rest : Text) :
    scanString (text.flatMap escape ++ '"' :: rest) = some (text, rest) := by
  obtain ⟨units, hscan, hunits⟩ := spells_flatMap hescape text rest
  simp only [scanString, hscan, map_some, hunits]

/-- The keys are in strict order. -/
def Sorted (fields : List (Text × Json)) : Prop :=
  fields.Pairwise (fun left right => left.1 < right.1)

theorem mem_insertField (key : Text) (value : Json) (fields : List (Text × Json)) :
    ∀ field ∈ insertField key value fields, field = (key, value) ∨ field ∈ fields := by
  induction fields with
  | nil =>
    intro field hfield
    exact .inl (mem_singleton.mp hfield)
  | cons head fields ih =>
    obtain ⟨k, v⟩ := head
    intro field hfield
    rw [insertField] at hfield
    split at hfield
    case isTrue hkey =>
      rcases mem_cons.mp hfield with rfl | hfield
      · exact .inl rfl
      exact .inr (mem_cons_of_mem _ hfield)
    split at hfield
    · rcases mem_cons.mp hfield with rfl | hfield
      · exact .inl rfl
      exact .inr hfield
    rcases mem_cons.mp hfield with rfl | hfield
    · exact .inr mem_cons_self
    rcases ih field hfield with hkey | hfield
    · exact .inl hkey
    exact .inr (mem_cons_of_mem _ hfield)

theorem sorted_insertField (key : Text) (value : Json)
    (h : Sorted fields) : Sorted (insertField key value fields) := by
  induction fields with
  | nil => exact pairwise_singleton _ _
  | cons head fields ih =>
    obtain ⟨k, v⟩ := head
    obtain ⟨hhead, htail⟩ := pairwise_cons.mp h
    rw [insertField]
    split
    case isTrue hkey =>
      subst hkey
      exact pairwise_cons.mpr ⟨hhead, htail⟩
    case isFalse hne =>
    split
    case isTrue hlt =>
      refine pairwise_cons.mpr ⟨?_, h⟩
      intro field hfield
      rcases mem_cons.mp hfield with rfl | hfield
      · exact hlt
      exact List.lt_trans hlt (hhead field hfield)
    case isFalse hge =>
      refine pairwise_cons.mpr ⟨?_, ih htail⟩
      intro field hfield
      rcases mem_insertField key value fields field hfield with rfl | hfield
      · exact lt_of_le_of_ne (not_lt.mp hge) (Ne.symm hne : k ≠ key)
      exact hhead field hfield

theorem sorted_buildObject (members : List (Text × Json)) : Sorted (buildObject members) := by
  have h : ∀ fields, Sorted fields → Sorted
      (members.foldl (fun fields member => insertField member.1 member.2 fields) fields) := by
    induction members with
    | nil =>
      intro fields hfields
      exact hfields
    | cons member members ih =>
      intro fields hfields
      exact ih _ (sorted_insertField member.1 member.2 hfields)
  exact h [] List.Pairwise.nil

theorem insertField_last {key : Text} (h : ∀ field ∈ fields, field.1 < key) :
    insertField key value fields = fields ++ [(key, value)] := by
  induction fields with
  | nil => rfl
  | cons head fields ih =>
    obtain ⟨k, v⟩ := head
    have hlt : k < key := h (k, v) mem_cons_self
    rw [insertField, if_neg (ne_of_gt hlt), if_neg (not_lt_of_gt hlt), cons_append,
      ih (fun field hfield => h field (mem_cons_of_mem _ hfield))]

theorem buildObject_sorted (h : Sorted fields) : buildObject fields = fields := by
  have hfold : ∀ built rest, Sorted (built ++ rest) →
      rest.foldl (fun fields member => insertField member.1 member.2 fields) built =
        built ++ rest := by
    intro built rest
    induction rest generalizing built with
    | nil => simp
    | cons member rest ih =>
      intro hsorted
      have hlast : ∀ field ∈ built, field.1 < member.1 := fun field hfield =>
        (pairwise_append.mp hsorted).2.2 field hfield member mem_cons_self
      rw [foldl_cons, insertField_last hlast, ih, append_assoc, singleton_append]
      rwa [append_assoc, singleton_append]
  exact hfold [] fields h

/-- A value as a decoder gives it, with at most `depth` containers one inside
the other. -/
inductive Normal : Nat → Json → Prop where
  | null (depth : Nat) : Normal depth .null
  | bool (depth : Nat) (value : Bool) : Normal depth (.bool value)
  | number (depth : Nat) {literal : Text} (h : IsNumber literal) : Normal depth (.number literal)
  | string (depth : Nat) (text : Text) : Normal depth (.string text)
  | array {depth : Nat} {items : List Json} (h : ∀ item ∈ items, Normal depth item) :
      Normal (depth + 1) (.array items)
  | object {depth : Nat} {fields : List (Text × Json)} (hsorted : Sorted fields)
      (h : ∀ field ∈ fields, Normal depth field.2) : Normal (depth + 1) (.object fields)

theorem Normal.mono {depth depth' : Nat} (h : Normal depth value)
    (hle : depth ≤ depth') : Normal depth' value := by
  induction h generalizing depth' with
  | null => exact .null depth'
  | bool _ value => exact .bool depth' value
  | number _ h => exact .number depth' h
  | string _ text => exact .string depth' text
  | array _ ih =>
    obtain ⟨n, rfl⟩ := Nat.exists_eq_add_of_le' (Nat.le_of_add_left_le hle)
    exact .array (fun item hitem => ih item hitem (Nat.le_of_succ_le_succ hle))
  | object hsorted _ ih =>
    obtain ⟨n, rfl⟩ := Nat.exists_eq_add_of_le' (Nat.le_of_add_left_le hle)
    exact .object hsorted (fun field hfield => ih field hfield (Nat.le_of_succ_le_succ hle))

theorem skipSpace_cons (hc : isSpace c = false) (rest : Text) :
    skipSpace (c :: rest) = c :: rest := by
  simp [skipSpace, hc]

theorem expect_self (hc : isSpace c = false) (rest : Text) : expect c (c :: rest) = some rest := by
  simp [expect, skipSpace_cons hc]

theorem expect_ne {c d : Char} (hd : isSpace d = false) (hne : d ≠ c) (rest : Text) :
    expect c (d :: rest) = none := by
  simp [expect, skipSpace_cons hd, hne]

theorem isNumber_head {literal : Text} (h : IsNumber literal) :
    ∃ c tail, literal = c :: tail ∧ (c = '-' ∨ c.isDigit = true) := by
  simp only [IsNumber, scanNumber, bind_eq_bind, bind_eq_some_iff, Prod.exists] at h
  obtain ⟨integer, afterInteger, hinteger, fraction, afterFraction, -, exponent, after, -,
    hres⟩ := h
  obtain ⟨hliteral, -⟩ := Prod.mk.inj (some.inj hres)
  obtain ⟨c, tail, rfl, hdigit⟩ := scanInteger_digit hinteger
  rcases scanMinus_cases literal with hminus | hminus <;> rw [hminus] at hliteral
  · exact ⟨c, _, hliteral.symm, .inr hdigit⟩
  exact ⟨'-', _, hliteral.symm, .inl rfl⟩

/-- The character can start the text of a value. -/
def Leads (c : Char) : Prop := isSpace c = false ∧ c ≠ ']'

theorem leads_digit (h : c = '-' ∨ c.isDigit = true) :
    Leads c ∧ c ≠ '"' ∧ c ≠ '[' ∧ c ≠ '{' ∧ c ≠ 'n' ∧ c ≠ 't' ∧ c ≠ 'f' := by
  rcases h with rfl | hdigit
  · exact ⟨⟨by decide, by decide⟩, by decide⟩
  have hne : ∀ d : Char, d.isDigit = false → c ≠ d := by
    rintro d hd rfl
    exact absurd hdigit (by simp [hd])
  refine ⟨⟨?_, hne _ (by decide)⟩, hne _ (by decide), hne _ (by decide), hne _ (by decide),
    hne _ (by decide), hne _ (by decide), hne _ (by decide)⟩
  simp [isSpace, hne ' ' (by decide), hne '\t' (by decide), hne '\n' (by decide),
    hne '\r' (by decide)]

theorem encode_head (h : Normal depth value) :
    ∃ c tail, encodeWith escape value = c :: tail ∧ Leads c := by
  cases h with
  | null => exact ⟨'n', _, rfl, by decide, by decide⟩
  | bool _ value =>
    cases value with
    | true => exact ⟨'t', _, rfl, by decide, by decide⟩
    | false => exact ⟨'f', _, rfl, by decide, by decide⟩
  | number _ h =>
    obtain ⟨c, tail, hliteral, hc⟩ := isNumber_head h
    exact ⟨c, tail, by rw [encodeWith, hliteral], (leads_digit hc).1⟩
  | string _ text => exact ⟨'"', _, rfl, by decide, by decide⟩
  | array => exact ⟨'[', _, rfl, by decide, by decide⟩
  | object => exact ⟨'{', _, rfl, by decide, by decide⟩

/-- The text of `value` is read as `value` wherever a value may stand. -/
def Reads (escape : Char → Text) (depth : Nat) (value : Json) : Prop :=
  ∀ fuel rest, Stops rest → 3 * (encodeWith escape value).length + 1 ≤ fuel →
    parseValue fuel depth (encodeWith escape value ++ rest) = some (value, rest)

theorem reads_number {literal : Text} (h : IsNumber literal) :
    Reads escape depth (.number literal) := by
  intro fuel rest hrest hfuel
  obtain ⟨fuel, rfl⟩ : ∃ n, fuel = n + 1 := ⟨fuel - 1, by omega⟩
  obtain ⟨c, tail, hliteral, hc⟩ := isNumber_head h
  obtain ⟨⟨hspace, -⟩, hquote, hbracket, hbrace, hn, ht, hf⟩ := leads_digit hc
  have hscan : scanNumber (c :: (tail ++ rest)) = some (c :: tail, rest) := by
    rw [← cons_append, ← hliteral, scanNumber_append _ hrest, h]
    rfl
  rw [encodeWith, hliteral, cons_append, parseValue, skipSpace_cons hspace]
  simp [hquote, hbracket, hbrace, parseScalar, keyword, hn.symm, ht.symm, hf.symm, hscan]

theorem parseItems_encode {items : List Json} (hsome : items ≠ [])
    (h : ∀ item ∈ items, Reads escape depth item) :
    ∀ fuel rest, 3 * (itemsWith escape items).length + 2 ≤ fuel →
      parseItems fuel depth (itemsWith escape items ++ ']' :: rest) = some (items, rest) := by
  induction items with
  | nil => exact absurd rfl hsome
  | cons item items ih =>
    intro fuel rest hfuel
    obtain ⟨fuel, rfl⟩ : ∃ n, fuel = n + 1 := ⟨fuel - 1, by omega⟩
    have hitem := h item mem_cons_self
    cases items with
    | nil =>
      rw [itemsWith] at hfuel ⊢
      rw [parseItems, hitem fuel _ (stops_cons (by simp)) (by omega)]
      simp [expect_ne, expect_self, isSpace]
    | cons next items =>
      rw [itemsWith, length_append, length_cons] at hfuel
      · rw [itemsWith, append_assoc, cons_append, parseItems,
          hitem fuel _ (stops_cons (by simp)) (by omega), bind_some]
        · have hrest := ih (by simp) (fun i hi => h i (mem_cons_of_mem _ hi)) fuel rest
            (by omega)
          simp [expect_self, isSpace, hrest]
        simp
      simp

theorem fieldWith_append (key : Text) (value : Json) (rest : Text) :
    fieldWith escape (key, value) ++ rest =
      '"' :: (key.flatMap escape ++ '"' :: ':' :: (encodeWith escape value ++ rest)) := by
  simp [fieldWith, stringWith]

theorem parseMembers_field (hescape : Faithful escape) {depth fuel : Nat} (key : Text)
    (h : Reads escape depth value) (hrest : Stops rest)
    (hfuel : 3 * (fieldWith escape (key, value)).length + 1 ≤ fuel) :
    parseMembers (fuel + 1) depth (fieldWith escape (key, value) ++ rest) =
      match expect ',' rest with
      | some more => (parseMembers fuel depth more).map
          (fun (members, rest) => ((key, value) :: members, rest))
      | none => (expect '}' rest).map (fun rest => ([(key, value)], rest)) := by
  have hlen : (encodeWith escape value).length ≤ (fieldWith escape (key, value)).length := by
    simp [fieldWith]
    omega
  have hvalue := h fuel rest hrest (by omega)
  rw [fieldWith_append, parseMembers, expect_self (by decide), bind_some,
    scanString_encode hescape, bind_some]
  cases hcomma : expect ',' rest with
  | none | some more =>
    simp only [expect_self (by decide : isSpace ':' = false), bind_some, hvalue, hcomma]

theorem parseMembers_encode (hescape : Faithful escape) (hsome : fields ≠ [])
    (h : ∀ field ∈ fields, Reads escape depth field.2) :
    ∀ fuel rest, 3 * (fieldsWith escape fields).length + 2 ≤ fuel →
      parseMembers fuel depth (fieldsWith escape fields ++ '}' :: rest) = some (fields, rest) := by
  induction fields with
  | nil => exact absurd rfl hsome
  | cons field fields ih =>
    obtain ⟨key, value⟩ := field
    intro fuel rest hfuel
    obtain ⟨fuel, rfl⟩ : ∃ n, fuel = n + 1 := ⟨fuel - 1, by omega⟩
    have hvalue : Reads escape depth value := h (key, value) mem_cons_self
    cases fields with
    | nil =>
      rw [fieldsWith] at hfuel ⊢
      rw [parseMembers_field hescape key hvalue (stops_cons (by simp)) (by omega)]
      simp [expect_ne, expect_self, isSpace]
    | cons next fields =>
      rw [fieldsWith, length_append, length_cons] at hfuel
      · rw [fieldsWith, append_assoc, cons_append,
          parseMembers_field hescape key hvalue (stops_cons (by simp)) (by omega)]
        · have hrest := ih (by simp) (fun i hi => h i (mem_cons_of_mem _ hi)) fuel rest
            (by omega)
          simp [expect_self, isSpace, hrest]
        simp
      simp

theorem parseArray_encode {items : List Json}
    (hnormal : ∀ item ∈ items, Normal depth item) (h : ∀ item ∈ items, Reads escape depth item) :
    Reads escape (depth + 1) (.array items) := by
  intro fuel rest hrest hfuel
  simp only [encodeWith, length_cons, length_append, length_nil] at hfuel
  obtain ⟨fuel, rfl⟩ : ∃ n, fuel = n + 2 := ⟨fuel - 2, by omega⟩
  have htext : encodeWith escape (.array items) ++ rest = '[' :: (itemsWith escape items ++ ']' :: rest) := by
    simp [encodeWith]
  rw [htext, parseValue, skipSpace_cons (by decide)]
  simp only [if_neg (by decide : ¬ '[' = '"'), if_true, parseArray, Nat.succ_ne_zero, if_false]
  cases items with
  | nil => rw [itemsWith, nil_append, expect_self (by decide)]
  | cons item items =>
    obtain ⟨c, tail, hitem, hspace, hbracket⟩ := encode_head (hnormal item mem_cons_self)
    have hhead : ∃ more, itemsWith escape (item :: items) = c :: more := by
      cases items with
      | nil => exact ⟨tail, hitem⟩
      | cons next items => exact ⟨_, by rw [itemsWith, hitem, cons_append]; simp⟩
    obtain ⟨more, hmore⟩ := hhead
    have hparse := parseItems_encode (cons_ne_nil item items) h fuel rest (by omega)
    rw [Nat.add_sub_cancel, hparse, hmore, cons_append, expect_ne hspace hbracket]
    rfl

theorem parseObject_encode (hescape : Faithful escape)
    (hsorted : Sorted fields) (h : ∀ field ∈ fields, Reads escape depth field.2) :
    Reads escape (depth + 1) (.object fields) := by
  intro fuel rest hrest hfuel
  simp only [encodeWith, length_cons, length_append, length_nil] at hfuel
  obtain ⟨fuel, rfl⟩ : ∃ n, fuel = n + 2 := ⟨fuel - 2, by omega⟩
  have htext : encodeWith escape (.object fields) ++ rest = '{' :: (fieldsWith escape fields ++ '}' :: rest) := by
    simp [encodeWith]
  rw [htext, parseValue, skipSpace_cons (by decide)]
  simp only [if_neg (by decide : ¬ '{' = '"'), if_neg (by decide : ¬ '{' = '['), if_true,
    parseObject, Nat.succ_ne_zero, if_false]
  cases fields with
  | nil =>
    rw [fieldsWith, nil_append, expect_self (by decide)]
  | cons field fields =>
    have hhead : ∃ more, fieldsWith escape (field :: fields) = '"' :: more := by
      obtain ⟨key, value⟩ := field
      cases fields with
      | nil => exact ⟨_, by rw [fieldsWith, fieldWith, stringWith]; rfl⟩
      | cons next fields =>
        exact ⟨_, by rw [fieldsWith, fieldWith_append]; simp⟩
    obtain ⟨more, hmore⟩ := hhead
    have hparse := parseMembers_encode hescape (cons_ne_nil field fields) h fuel rest (by omega)
    rw [Nat.add_sub_cancel, hparse, hmore, cons_append,
      expect_ne (by decide) (by decide), map_some, buildObject_sorted hsorted]

theorem Normal.reads (hescape : Faithful escape)
    (h : Normal depth value) : Reads escape depth value := by
  induction h with
  | null depth =>
    intro fuel rest hrest hfuel
    obtain ⟨fuel, rfl⟩ : ∃ n, fuel = n + 1 := ⟨fuel - 1, by omega⟩
    simp [encodeWith, parseValue, skipSpace, isSpace, parseScalar, keyword]
  | bool depth value =>
    intro fuel rest hrest hfuel
    obtain ⟨fuel, rfl⟩ : ∃ n, fuel = n + 1 := ⟨fuel - 1, by omega⟩
    cases value <;> simp [encodeWith, parseValue, skipSpace, isSpace, parseScalar, keyword]
  | number depth h => exact reads_number h
  | string depth text =>
    intro fuel rest hrest hfuel
    obtain ⟨fuel, rfl⟩ : ∃ n, fuel = n + 1 := ⟨fuel - 1, by omega⟩
    have htext : encodeWith escape (.string text) ++ rest =
        '"' :: (text.flatMap escape ++ '"' :: rest) := by
      simp [encodeWith, stringWith]
    rw [htext, parseValue, skipSpace_cons (by decide)]
    simp [scanString_encode hescape]
  | array hnormal ih => exact parseArray_encode hnormal ih
  | object hsorted _ ih => exact parseObject_encode hescape hsorted ih

theorem decode_encode (h : Normal maxNestingDepth value) : decode (encode value) = some value := by
  have hread := h.reads faithful_escapeChar
  simp only [Reads, encodeWith_escapeChar] at hread
  have hread := hread (3 * (encode value).length + 1) [] stops_nil (Nat.le_refl _)
  rw [append_nil] at hread
  simp [decode, hread, skipSpace]

theorem normal_of_keyword {word cs rest : Text} {meant value : Json}
    (h : keyword word meant cs = some (value, rest)) (hmeant : Normal depth meant) :
    Normal depth value := by
  simp only [keyword] at h
  split at h
  · cases h
    exact hmeant
  cases h

theorem normal_of_parseScalar {cs rest : Text} (depth : Nat)
    (h : parseScalar cs = some (value, rest)) : Normal depth value := by
  simp only [parseScalar, orElse_eq_orElse, orElse_eq_or, or_eq_some_iff] at h
  rcases h with hnull | ⟨-, htrue | ⟨-, hfalse | ⟨-, hnumber⟩⟩⟩
  · exact normal_of_keyword hnull (.null depth)
  · exact normal_of_keyword htrue (.bool depth true)
  · exact normal_of_keyword hfalse (.bool depth false)
  obtain ⟨⟨literal, after⟩, hscan, hpair⟩ := map_eq_some_iff.mp hnumber
  cases hpair
  exact .number depth (scanNumber_literal hscan)

theorem mem_buildObject {members : List (Text × Json)} {field : Text × Json}
    (h : field ∈ buildObject members) : field ∈ members := by
  have hfold : ∀ built, field ∈ members.foldl
      (fun fields member => insertField member.1 member.2 fields) built →
      field ∈ built ∨ field ∈ members := by
    clear h
    induction members with
    | nil =>
      intro built hbuilt
      exact .inl hbuilt
    | cons member members ih =>
      intro built hbuilt
      rcases ih _ hbuilt with hins | hmembers
      · rcases mem_insertField _ _ _ _ hins with rfl | hpre
        · exact .inr mem_cons_self
        exact .inl hpre
      exact .inr (mem_cons_of_mem _ hmembers)
  rcases hfold [] h with hnil | hmembers
  · cases hnil
  exact hmembers

/-- What the five parsers give with `fuel` calls. -/
structure ParsesNormal (fuel : Nat) : Prop where
  value : ∀ {depth cs value rest}, parseValue fuel depth cs = some (value, rest) →
    Normal depth value
  array : ∀ {depth cs value rest}, parseArray fuel depth cs = some (value, rest) →
    Normal depth value
  object : ∀ {depth cs value rest}, parseObject fuel depth cs = some (value, rest) →
    Normal depth value
  items : ∀ {depth cs items rest}, parseItems fuel depth cs = some (items, rest) →
    ∀ item ∈ items, Normal depth item
  members : ∀ {depth cs members rest}, parseMembers fuel depth cs = some (members, rest) →
    ∀ member ∈ members, Normal depth member.2

theorem parsesNormal (fuel : Nat) : ParsesNormal fuel := by
  induction fuel with
  | zero => constructor <;> simp [parseValue, parseArray, parseObject, parseItems, parseMembers]
  | succ fuel ih =>
    constructor
    case value =>
      intro depth cs value rest h
      rw [parseValue] at h
      split at h
      · cases h
      split at h
      · obtain ⟨⟨text, after⟩, -, hpair⟩ := map_eq_some_iff.mp h
        cases hpair
        exact .string depth text
      split at h
      · exact ih.array h
      split at h
      · exact ih.object h
      exact normal_of_parseScalar depth h
    case array =>
      intro depth cs value rest h
      rw [parseArray] at h
      split at h
      · cases h
      case isFalse hdepth =>
      obtain ⟨depth, rfl⟩ := Nat.exists_eq_succ_of_ne_zero hdepth
      split at h
      · cases h
        exact .array (by simp)
      obtain ⟨⟨items, after⟩, hitems, hpair⟩ := map_eq_some_iff.mp h
      cases hpair
      exact .array (ih.items hitems)
    case object =>
      intro depth cs value rest h
      rw [parseObject] at h
      split at h
      · cases h
      case isFalse hdepth =>
      obtain ⟨depth, rfl⟩ := Nat.exists_eq_succ_of_ne_zero hdepth
      split at h
      · cases h
        exact .object List.Pairwise.nil (by simp)
      obtain ⟨⟨members, after⟩, hmembers, hpair⟩ := map_eq_some_iff.mp h
      cases hpair
      exact .object (sorted_buildObject members)
        (fun field hfield => ih.members hmembers field (mem_buildObject hfield))
    case items =>
      intro depth cs items rest h
      rw [parseItems] at h
      obtain ⟨⟨item, after⟩, hitem, h⟩ := bind_eq_some_iff.mp h
      have hnormal := ih.value hitem
      simp only at h
      split at h
      · obtain ⟨⟨more, end_⟩, hmore, hpair⟩ := map_eq_some_iff.mp h
        cases hpair
        exact forall_mem_cons.mpr ⟨hnormal, ih.items hmore⟩
      obtain ⟨end_, -, hpair⟩ := map_eq_some_iff.mp h
      cases hpair
      exact forall_mem_singleton.mpr hnormal
    case members =>
      intro depth cs members rest h
      rw [parseMembers] at h
      obtain ⟨⟨key, afterKey⟩, -, h⟩ := bind_eq_some_iff.mp h
      obtain ⟨⟨value, after⟩, hvalue, h⟩ := bind_eq_some_iff.mp h
      obtain ⟨start, -, hvalue⟩ := bind_eq_some_iff.mp hvalue
      have hnormal := ih.value hvalue
      simp only at h
      split at h
      · obtain ⟨⟨more, end_⟩, hmore, hpair⟩ := map_eq_some_iff.mp h
        cases hpair
        exact forall_mem_cons.mpr ⟨hnormal, ih.members hmore⟩
      obtain ⟨end_, -, hpair⟩ := map_eq_some_iff.mp h
      cases hpair
      exact forall_mem_singleton.mpr hnormal

theorem parseArray_array {fuel depth : Nat} {cs rest : Text}
    (h : parseArray fuel depth cs = some (value, rest)) : ∃ items, value = .array items := by
  cases fuel with
  | zero => simp [parseArray] at h
  | succ fuel =>
    rw [parseArray] at h
    split at h
    · cases h
    split at h
    · exact ⟨[], (Prod.mk.inj (some.inj h)).1.symm⟩
    obtain ⟨⟨items, after⟩, -, hpair⟩ := map_eq_some_iff.mp h
    exact ⟨items, (Prod.mk.inj hpair).1.symm⟩

theorem parseObject_object {fuel depth : Nat} {cs rest : Text}
    (h : parseObject fuel depth cs = some (value, rest)) : ∃ fields, value = .object fields := by
  cases fuel with
  | zero => simp [parseObject] at h
  | succ fuel =>
    rw [parseObject] at h
    split at h
    · cases h
    split at h
    · exact ⟨[], (Prod.mk.inj (some.inj h)).1.symm⟩
    obtain ⟨⟨members, after⟩, -, hpair⟩ := map_eq_some_iff.mp h
    exact ⟨buildObject members, (Prod.mk.inj hpair).1.symm⟩

theorem decode_kind {cs : Text} (h : decode (c :: cs) = some value) :
    (c = '"' → ∃ text, value = .string text) ∧ (c = '[' → ∃ items, value = .array items) ∧
      (c = '{' → ∃ fields, value = .object fields) := by
  simp only [decode] at h
  split at h
  case h_2 => cases h
  case h_1 value' rest hparse =>
    obtain rfl : value' = value := by
      split at h
      · exact some.inj h
      cases h
    rw [parseValue] at hparse
    refine ⟨?_, ?_, ?_⟩
    · rintro rfl
      rw [skipSpace_cons (by decide)] at hparse
      obtain ⟨⟨text, after⟩, -, hpair⟩ := map_eq_some_iff.mp hparse
      exact ⟨text, (Prod.mk.inj hpair).1.symm⟩
    · rintro rfl
      rw [skipSpace_cons (by decide)] at hparse
      exact parseArray_array hparse
    rintro rfl
    rw [skipSpace_cons (by decide)] at hparse
    exact parseObject_object hparse

theorem normal_of_decode {cs : Text} (h : decode cs = some value) :
    Normal maxNestingDepth value := by
  simp only [decode] at h
  split at h
  case h_1 value' rest hparse =>
    split at h
    · cases h
      exact (parsesNormal _).value hparse
    cases h
  · cases h

end JsonText
