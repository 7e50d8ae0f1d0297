import ImApp.Library.Double
import ImApp.Library.UnicodeText
import ImApp.Library.Utf8

/-!
`Number` of a text, as far as it is finite. A decimal integer of 64 bits, as programs
print them, is read as its rounded value.
-/

namespace JsNumber

open List Bool
open JsonText (Text)
open Utf8 (Bytes)

def isBlank (c : Char) : Bool := c = '\ufeff' || (UnicodeText.isSpace c && c != '\u0085')

def trim (text : Text) : Text := UnicodeText.trimWhere isBlank text

@[simp] theorem trim_trim (text : Text) : trim (trim text) = trim text :=
  UnicodeText.trimWhere_trimWhere isBlank text

def isDigit (c : Char) : Bool := '0' ≤ c && c ≤ '9'

/-- The value of a digit in a radix up to 16. -/
def digitValue (c : Char) : Option Nat :=
  if isDigit c then some (c.toNat - '0'.toNat)
  else if 'a' ≤ c ∧ c ≤ 'f' then some (c.toNat - 'a'.toNat + 10)
  else if 'A' ≤ c ∧ c ≤ 'F' then some (c.toNat - 'A'.toNat + 10)
  else none

def digitsValue (radix : Nat) (digits : Text) : Nat :=
  digits.foldl (fun n c => n * radix + (digitValue c).getD 0) 0

/-- The integer after `0x`, `0o` or `0b`. -/
def inRadix (radix : Nat) (digits : Text) : Option ℚ :=
  if digits ≠ [] && digits.all fun c => (digitValue c).any (· < radix) then
    some (digitsValue radix digits)
  else none

def exponentPart : Text → Option ℤ
  | [] => some 0
  | mark :: rest => if mark = 'e' || mark = 'E' then let (negative, digits) := match rest with
        | '-' :: digits => (true, digits)
        | '+' :: digits => (false, digits)
        | digits => (false, digits)
      if digits ≠ [] && digits.all isDigit then
        some (if negative then -(digitsValue 10 digits : ℤ) else digitsValue 10 digits)
      else none
    else none

/-- A decimal number without a sign. -/
def unsigned (text : Text) : Option ℚ :=
  let (whole, rest) := text.span isDigit
  let (fraction, rest) := match rest with
    | '.' :: rest => rest.span isDigit
    | rest => ([], rest)
  if whole = [] && fraction = [] then none
  else (exponentPart rest).map fun exponent =>
    (digitsValue 10 (whole ++ fraction) : ℚ) / 10 ^ fraction.length * 10 ^ exponent

/-- The exact value of a text, nothing where it is infinite or no number. -/
def value (text : Text) : Option ℚ :=
  match text with
  | [] => some 0
  | '0' :: mark :: digits =>
    if mark = 'x' || mark = 'X' then inRadix 16 digits
    else if mark = 'o' || mark = 'O' then inRadix 8 digits
    else if mark = 'b' || mark = 'B' then inRadix 2 digits
    else unsigned ('0' :: mark :: digits)
  | '-' :: rest => (unsigned rest).map fun x => -x
  | '+' :: rest => unsigned rest
  | text => unsigned text

/-- `Number(text)` where it is finite. -/
def number (text : Text) : Option ℚ := (value (trim text)).bind Double.round

/-- The number where it is an integer. -/
def integer (text : Text) : Option ℚ := (number text).filter fun x => x.den = 1

/-- A decimal integer, without a sign where it is positive and without zeros in front. -/
def decimal : Text → Option ℤ
  | [] => none
  | ['0'] => some 0
  | '-' :: digits => if digits ≠ [] && digits.all isDigit && digits.head? ≠ some '0' then
      some (-(digitsValue 10 digits : ℤ)) else none
  | digits =>
    if digits.all isDigit && digits.head? ≠ some '0' then some (digitsValue 10 digits) else none

/-- One of 64 bits. -/
def decimalInteger (text : Text) : Option ℤ :=
  (decimal text).filter fun n => -2 ^ 63 ≤ n && n < 2 ^ 63

theorem unsigned_digits {digits : Text} (hne : digits ≠ []) (hall : digits.all isDigit = true) :
    unsigned digits = some (digitsValue 10 digits : ℚ) := by
  have hspan : digits.span isDigit = (digits, []) := by
    rw [span_eq_takeWhile_dropWhile, takeWhile_eq_self_iff.mpr (all_eq_true.mp hall),
      dropWhile_eq_nil_iff.mpr (all_eq_true.mp hall)]
  unfold unsigned
  rw [hspan]
  simp [hne, exponentPart]

theorem isBlank_of_ascii {c : Char} (hlow : 0x20 < c.toNat) (hhigh : c.toNat < 0x80) :
    isBlank c = false := by
  have hne : ∀ d : Char, d.toNat ≤ 0x20 ∨ 0x80 ≤ d.toNat → c ≠ d := by
    rintro d hd rfl
    omega
  unfold isBlank UnicodeText.isSpace
  simp only [or_eq_false_iff, and_eq_false_iff, decide_eq_false_iff_not]
  have hspace : c ≠ ' ' := hne _ (by decide)
  refine ⟨hne _ (by decide), .inl ?_⟩
  and_intros
  all_goals first
    | exact hspace
    | omega

theorem isBlank_of_isDigit {c : Char} (h : isDigit c = true) : isBlank c = false := by
  obtain ⟨hlow, hhigh⟩ := (and_eq_true _ _).mp h
  have hlow' : 48 ≤ c.toNat := of_decide_eq_true hlow
  have hhigh' : c.toNat ≤ 57 := of_decide_eq_true hhigh
  exact isBlank_of_ascii (by omega) (by omega)

theorem trim_eq_self {text : Text} (h : ∀ c ∈ text, isDigit c = true ∨ c = '-') :
    trim text = text := by
  have hnone : ∀ c ∈ text, isBlank c = false := by
    intro c hc
    rcases h c hc with hdigit | rfl
    · exact isBlank_of_isDigit hdigit
    decide
  apply UnicodeText.trimWhere_eq_self
  · exact fun c hc => hnone c (mem_of_mem_head? hc)
  exact fun c hc => hnone c (mem_of_getLast? hc)

theorem value_decimal {text : Text} {n : ℤ} (h : decimalInteger text = some n) :
    value text = some (n : ℚ) ∧ ∀ c ∈ text, isDigit c = true ∨ c = '-' := by
  obtain ⟨hdecimal, -⟩ := Option.filter_eq_some_iff.mp h
  unfold decimal at hdecimal
  split at hdecimal
  · cases hdecimal
  · cases hdecimal
    constructor
    · change unsigned ['0'] = _
      rw [unsigned_digits (by decide) (by decide)]
      rfl
    intro c hc
    obtain rfl := mem_singleton.mp hc
    exact .inl (by decide)
  · rename_i digits
    split at hdecimal
    · rename_i hcond
      cases hdecimal
      simp only [and_eq_true, decide_eq_true_eq] at hcond
      obtain ⟨⟨hne, hall⟩, -⟩ := hcond
      refine ⟨?_, ?_⟩
      · change (unsigned digits).map (fun x => -x) = _
        rw [unsigned_digits hne hall]
        simp
      intro c hc
      rcases mem_cons.mp hc with rfl | hc
      · exact .inr rfl
      exact .inl (all_eq_true.mp hall c hc)
    cases hdecimal
  rename_i hnil hzero hsign
  split at hdecimal
  · rename_i hcond
    cases hdecimal
    simp only [and_eq_true, decide_eq_true_eq] at hcond
    obtain ⟨hall, hhead⟩ := hcond
    refine ⟨?_, fun c hc => .inl (all_eq_true.mp hall c hc)⟩
    have hplain : value text = unsigned text := by
      unfold value
      split
      · exact absurd rfl hnil
      · exact absurd rfl hhead
      · exact absurd rfl (hsign _)
      · exact absurd (all_eq_true.mp hall '+' mem_cons_self) (by decide)
      rfl
    rw [hplain, unsigned_digits hnil hall]
    rfl
  cases hdecimal

theorem number_decimal {text : Text} {n : ℤ} (h : decimalInteger text = some n) :
    number text = Double.round n := by
  obtain ⟨hvalue, hchars⟩ := value_decimal h
  rw [number, trim_eq_self hchars, hvalue]
  rfl

end JsNumber
