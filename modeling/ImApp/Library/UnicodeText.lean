import ImApp.Library.JsonText
import Mathlib.Data.List.DropRight

/-!
Text operations of a Unicode string library, on valid text. Case mapping is
given where its result is an ASCII character; every other character stays as it
is, which decides each comparison with ASCII text.
-/

namespace UnicodeText

open List Option
open JsonText (Text)

def isSpace (c : Char) : Bool :=
  c = ' ' || (0x09 ≤ c.toNat && c.toNat ≤ 0x0d) || c.toNat = 0x85 || c.toNat = 0xa0 ||
    c.toNat = 0x1680 || (0x2000 ≤ c.toNat && c.toNat ≤ 0x200a) || c.toNat = 0x2028 ||
    c.toNat = 0x2029 || c.toNat = 0x202f || c.toNat = 0x205f || c.toNat = 0x3000

def trimSpace (text : Text) : Text :=
  ((text.dropWhile isSpace).reverse.dropWhile isSpace).reverse

/-- The capital I with a dot and the Kelvin sign also have ASCII lower case. -/
def lowerChar (c : Char) : Char :=
  if 'A' ≤ c ∧ c ≤ 'Z' then Char.ofNat (c.toNat + 32)
  else if c.toNat = 0x130 then 'i'
  else if c.toNat = 0x212a then 'k'
  else c

def toLower (text : Text) : Text := text.map lowerChar

/-- The long s and the Kelvin sign also fold to ASCII letters. -/
def foldChar (c : Char) : Char :=
  if 'A' ≤ c ∧ c ≤ 'Z' then Char.ofNat (c.toNat + 32)
  else if c.toNat = 0x17f then 's'
  else if c.toNat = 0x212a then 'k'
  else c

def equalFold (left right : Text) : Bool := left.map foldChar = right.map foldChar

def utf8Length (text : Text) : Nat := text.foldr (fun c length => c.utf8Size + length) 0

variable {c : Char}

theorem toUpper_lower (h : 'a'.val ≤ c.val ∧ c.val ≤ 'z'.val) : c.toUpper.toNat + 32 = c.toNat := by
  have hlow : 97 ≤ c.val.toNat := h.1
  have hhigh : c.val.toNat ≤ 122 := h.2
  have hshift : ('A'.val - 'a'.val).toNat = 4294967264 := by decide
  have hupper : c.toUpper = ⟨c.val + ('A'.val - 'a'.val), _⟩ := dif_pos h
  have hsum : c.toUpper.toNat = (c.val.toNat + 4294967264) % 2 ^ 32 := by
    rw [hupper, ← hshift]
    exact UInt32.toNat_add _ _
  rw [hsum, ← Char.toNat_val]
  omega

theorem toUpper_other (h : ¬ ('a'.val ≤ c.val ∧ c.val ≤ 'z'.val)) : c.toUpper = c :=
  dif_neg h

theorem lower_bounds (h : 'a'.val ≤ c.val ∧ c.val ≤ 'z'.val) : 97 ≤ c.toNat ∧ c.toNat ≤ 122 := h

/-- Trimming where another set of characters is blank. -/
def trimWhere (blank : Char → Bool) (text : Text) : Text :=
  ((text.dropWhile blank).reverse.dropWhile blank).reverse

theorem trimWhere_eq (blank : Char → Bool) (text : Text) :
    trimWhere blank text = (text.dropWhile blank).rdropWhile blank := rfl

variable {blank : Char → Bool}

theorem trimWhere_eq_self {text : Text} (hhead : ∀ c ∈ text.head?, blank c = false)
    (hlast : ∀ c ∈ text.getLast?, blank c = false) : trimWhere blank text = text := by
  have hdrop : text.dropWhile blank = text := by
    cases text with
    | nil => rfl
    | cons c text => exact dropWhile_cons_of_neg (by simp [hhead c rfl])
  rw [trimWhere_eq, hdrop, rdropWhile_eq_self_iff]
  intro hne
  simp [hlast _ (getLast?_eq_some_getLast hne)]

@[simp] theorem trimWhere_trimWhere (blank : Char → Bool) (text : Text) :
    trimWhere blank (trimWhere blank text) = trimWhere blank text := by
  apply trimWhere_eq_self
  · intro c hc
    rw [trimWhere_eq] at hc
    obtain ⟨rest, hrest⟩ := rdropWhile_prefix blank (text.dropWhile blank)
    have hhead : (text.dropWhile blank).head? = some c := by
      rw [← hrest, head?_append, mem_def.mp hc]
      rfl
    have hnot := head?_dropWhile_not blank text
    rw [hhead] at hnot
    exact hnot
  intro c hc
  have hne : trimWhere blank text ≠ [] := by
    intro hnil
    rw [hnil] at hc
    cases hc
  have hlast := rdropWhile_last_not blank (text.dropWhile blank) hne
  have hc' := getLast?_eq_some_getLast hne
  rw [mem_def.mp hc] at hc'
  rw [some.inj hc']
  exact Bool.eq_false_iff.mpr hlast

theorem dropWhile_flatMap {f : Char → Text}
    (hblank : ∀ c, blank c = true → ∀ d ∈ f c, blank d = true)
    (hother : ∀ c, blank c = false → f c ≠ [] ∧ ∀ d ∈ f c, blank d = false) (text : Text) :
    (text.flatMap f).dropWhile blank = (text.dropWhile blank).flatMap f := by
  induction text with
  | nil => rfl
  | cons c rest ih =>
    rw [flatMap_cons]
    cases hc : blank c with
    | true => rw [dropWhile_append_of_pos (hblank c hc), dropWhile_cons_of_pos hc, ih]
    | false =>
      obtain ⟨hne, hall⟩ := hother c hc
      obtain ⟨d, ds, hd⟩ := exists_cons_of_ne_nil hne
      have hfirst : ¬ blank d = true := by
        rw [hall d (hd ▸ mem_cons_self)]
        decide
      rw [dropWhile_cons_of_neg (by rw [hc]; decide), flatMap_cons, hd,
        cons_append, dropWhile_cons_of_neg hfirst]

/-- Trimming passes over a rewriting that keeps blanks and other characters apart. -/
theorem trimWhere_flatMap {f : Char → Text}
    (hblank : ∀ c, blank c = true → ∀ d ∈ f c, blank d = true)
    (hother : ∀ c, blank c = false → f c ≠ [] ∧ ∀ d ∈ f c, blank d = false) (text : Text) :
    trimWhere blank (text.flatMap f) = (trimWhere blank text).flatMap f := by
  have hblank' : ∀ c, blank c = true → ∀ d ∈ (f c).reverse, blank d = true :=
    fun c hc d hd => hblank c hc d (mem_reverse.mp hd)
  have hother' : ∀ c, blank c = false →
      (f c).reverse ≠ [] ∧ ∀ d ∈ (f c).reverse, blank d = false := by
    intro c hc
    obtain ⟨hne, hall⟩ := hother c hc
    exact ⟨reverse_ne_nil_iff.mpr hne, fun d hd => hall d (mem_reverse.mp hd)⟩
  unfold trimWhere
  rw [dropWhile_flatMap hblank hother, reverse_flatMap,
    dropWhile_flatMap (f := List.reverse ∘ f) hblank' hother', reverse_flatMap]
  simp only [reverse_reverse, Function.comp_def]

theorem trimSpace_eq_self {text : Text} (hhead : ∀ c ∈ text.head?, isSpace c = false)
    (hlast : ∀ c ∈ text.getLast?, isSpace c = false) : trimSpace text = text :=
  trimWhere_eq_self hhead hlast

theorem trimSpace_delimited {first last : Char} (hfirst : isSpace first = false)
    (hlast : isSpace last = false) (text : Text) :
    trimSpace (first :: (text ++ [last])) = first :: (text ++ [last]) := by
  apply trimSpace_eq_self
  · intro c hc
    rw [← some.inj (mem_def.mp hc)]
    exact hfirst
  intro c hc
  rw [← cons_append, getLast?_concat] at hc
  rw [← some.inj (mem_def.mp hc)]
  exact hlast

@[simp] theorem trimSpace_trimSpace (text : Text) : trimSpace (trimSpace text) = trimSpace text :=
  trimWhere_trimWhere isSpace text

end UnicodeText
