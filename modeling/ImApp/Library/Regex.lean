import ImApp.Library.JsNumber

/-!
Regular expressions with backtracking. A match that begins at a spot can end in several
spots; they are listed in the order in which a search tries them, and the first one
counts.
-/

namespace Regex

open JsonText (Text)

/-- A place in a text: the characters before it, last first, those after it, and the
groups that were matched on the way. -/
structure Spot where
  before : Text
  rest : Text
  groups : List Text

namespace Spot

def start (text : Text) : Spot := ⟨[], text, []⟩

/-- The spots behind `0, 1, 2, ..` accepted characters. -/
def stepsFrom (accepts : Char → Bool) (groups : List Text) : Text → Text → List Spot
  | before, [] => [⟨before, [], groups⟩]
  | before, c :: rest => ⟨before, c :: rest, groups⟩ ::
      if accepts c then stepsFrom accepts groups (c :: before) rest else []

def steps (s : Spot) (accepts : Char → Bool) : List Spot :=
  stepsFrom accepts s.groups s.before s.rest

/-- The text from one spot to a later one. -/
def upto (s e : Spot) : Text := (e.before.take (e.before.length - s.before.length)).reverse

end Spot

def isWord (c : Char) : Bool :=
  JsNumber.isDigit c || ('a' ≤ c && c ≤ 'z') || ('A' ≤ c && c ≤ 'Z') || c = '_'

/-- One of the two characters around the spot is a word character. -/
def atBoundary (s : Spot) : Bool := s.before.head?.any isWord != s.rest.head?.any isWord

end Regex

inductive Regex where
  /-- One character of a class. -/
  | one (accepts : Char → Bool)
  /-- `\b` -/
  | boundary
  | seq (first second : Regex)
  | alt (first second : Regex)
  /-- `r?` -/
  | optional (r : Regex)
  /-- `[..]{n,}` -/
  | many (least : Nat) (accepts : Char → Bool)
  /-- `[..]{n,}?` -/
  | few (least : Nat) (accepts : Char → Bool)
  /-- `r*` -/
  | star (r : Regex)
  | group (r : Regex)

namespace Regex

open JsonText (Text)

/-- The spots behind any number of matches, the most first. -/
def starFrom (ends : Spot → List Spot) : Nat → Spot → List Spot
  | 0, s => [s]
  | fuel + 1, s =>
    ((ends s).filter fun e => e.rest.length < s.rest.length).flatMap (starFrom ends fuel) ++ [s]

def ends : Regex → Spot → List Spot
  | .one accepts, s => ((s.steps accepts).drop 1).take 1
  | .boundary, s => if atBoundary s then [s] else []
  | .seq first second, s => (first.ends s).flatMap second.ends
  | .alt first second, s => first.ends s ++ second.ends s
  | .optional r, s => r.ends s ++ [s]
  | .many least accepts, s => ((s.steps accepts).drop least).reverse
  | .few least accepts, s => (s.steps accepts).drop least
  | .star r, s => starFrom r.ends s.rest.length s
  | .group r, s => (r.ends s).map fun e => { e with groups := e.groups ++ [s.upto e] }

/-- Where the match at a spot ends. -/
def matchAt (r : Regex) (s : Spot) : Option Spot := (r.ends s).head?

/-- The first match of a text. -/
def find (r : Regex) (text : Text) : Option (Spot × Spot) :=
  ((Spot.start text).steps fun _ => true).findSome? fun s => (r.matchAt s).map fun e => (s, e)

def test (r : Regex) (text : Text) : Bool := (r.find text).isSome

/-- Each match replaced, in the rest of a text. -/
def replaceFrom (r : Regex) (replacement : List Text → Text) : Nat → Spot → Text
  | 0, s => s.rest
  | fuel + 1, s => match r.matchAt s, s.rest with
    | some e, [] => replacement e.groups
    | none, [] => []
    | some e, c :: rest => if e.rest.length < (c :: rest).length then
        replacement e.groups ++ r.replaceFrom replacement fuel { e with groups := [] }
      else replacement e.groups ++ c :: r.replaceFrom replacement fuel ⟨c :: s.before, rest, []⟩
    | none, c :: rest => c :: r.replaceFrom replacement fuel ⟨c :: s.before, rest, []⟩

/-- `text.replace(r, replacement)` for a global `r`. -/
def replaceAll (r : Regex) (replacement : List Text → Text) (text : Text) : Text :=
  r.replaceFrom replacement (text.length + 1) (Spot.start text)

/-- The matches one after the other, each with its beginning and its end. -/
def matchesFrom (r : Regex) : Nat → Spot → List (Spot × Spot)
  | 0, _ => []
  | fuel + 1, s => match r.matchAt s, s.rest with
    | some e, [] => [(s, e)]
    | none, [] => []
    | some e, c :: rest => (s, e) :: if e.rest.length < (c :: rest).length then
          r.matchesFrom fuel { e with groups := [] }
        else r.matchesFrom fuel ⟨c :: s.before, rest, []⟩
    | none, c :: rest => r.matchesFrom fuel ⟨c :: s.before, rest, []⟩

/-- `text.matchAll(r)` for a global `r`. -/
def matchAll (r : Regex) (text : Text) : List (Spot × Spot) :=
  r.matchesFrom (text.length + 1) (Spot.start text)

/-- The pieces of a text around the matches of an expression without groups, from a spot
inside of a piece. -/
def splitFrom (r : Regex) : Nat → Text → Spot → List Text
  | 0, piece, s => [piece ++ s.rest]
  | fuel + 1, piece, s => match s.rest, r.matchAt s with
    | [], _ => [piece]
    | c :: rest, none => r.splitFrom fuel (piece ++ [c]) ⟨c :: s.before, rest, []⟩
    | c :: rest, some e =>
      if piece = [] ∧ e.rest = c :: rest then r.splitFrom fuel [c] ⟨c :: s.before, rest, []⟩
      else piece :: r.splitFrom fuel [] { e with groups := [] }

/-- `text.split(r)` for a text that is not empty. -/
def split (r : Regex) (text : Text) : List Text := r.splitFrom (text.length + 1) [] (Spot.start text)

def seqs : List Regex → Regex
  | [] => .many 0 fun _ => false
  | [r] => r
  | r :: rest => .seq r (seqs rest)

def alts : List Regex → Regex
  | [] => .one fun _ => false
  | [r] => r
  | r :: rest => .alt r (alts rest)

def literal (text : String) : Regex := seqs (text.toList.map fun c => .one (· = c))

/-- The characters that match `c` without regard to case: ASCII letters have no others. -/
def sameLetter (c d : Char) : Bool := d = c || d.toUpper = c.toUpper

def anyCase (text : String) : Regex := seqs (text.toList.map fun c => .one (sameLetter c))

/-- `[A-Za-z]` -/
def isLetter (c : Char) : Bool := ('a' ≤ c && c ≤ 'z') || ('A' ≤ c && c ≤ 'Z')

/-- `\s` -/
def isBlank (c : Char) : Bool := JsNumber.isBlank c

def blanks (least : Nat) : Regex := .many least isBlank

variable {c d : Char}

theorem isLetter_iff :
    isLetter c = true ↔ 97 ≤ c.toNat ∧ c.toNat ≤ 122 ∨ 65 ≤ c.toNat ∧ c.toNat ≤ 90 := by
  unfold isLetter
  simp only [Bool.or_eq_true, Bool.and_eq_true, decide_eq_true_eq]
  exact Iff.rfl

theorem sameLetter_cases (h : sameLetter c d = true) :
    d = c ∨ isLetter c = true ∧ isLetter d = true := by
  rcases (Bool.or_eq_true _ _).mp h with hsame | hupper
  · exact .inl (of_decide_eq_true hsame)
  have hupper := of_decide_eq_true hupper
  by_cases hc : 'a'.val ≤ c.val ∧ c.val ≤ 'z'.val
  · right
    have hcode := UnicodeText.toUpper_lower hc
    have hbounds := UnicodeText.lower_bounds hc
    by_cases hd : 'a'.val ≤ d.val ∧ d.val ≤ 'z'.val
    · exact ⟨isLetter_iff.mpr (.inl hbounds),
        isLetter_iff.mpr (.inl (UnicodeText.lower_bounds hd))⟩
    rw [UnicodeText.toUpper_other hd] at hupper
    rw [← hupper] at hcode
    exact ⟨isLetter_iff.mpr (.inl hbounds), isLetter_iff.mpr (.inr (by omega))⟩
  rw [UnicodeText.toUpper_other hc] at hupper
  by_cases hd : 'a'.val ≤ d.val ∧ d.val ≤ 'z'.val
  · right
    have hcode := UnicodeText.toUpper_lower hd
    have hbounds := UnicodeText.lower_bounds hd
    rw [hupper] at hcode
    exact ⟨isLetter_iff.mpr (.inr (by omega)), isLetter_iff.mpr (.inl hbounds)⟩
  rw [UnicodeText.toUpper_other hd] at hupper
  exact .inl hupper

theorem sameLetter_iff : sameLetter c d = true ↔ d.toUpper = c.toUpper := by
  unfold sameLetter
  rw [Bool.or_eq_true, decide_eq_true_eq, decide_eq_true_eq]
  constructor
  · rintro (rfl | h)
    · rfl
    exact h
  exact .inr

theorem sameLetter_trans {a b : Char} (h : sameLetter a b = true) (h' : sameLetter b c = true) :
    sameLetter a c = true :=
  sameLetter_iff.mpr ((sameLetter_iff.mp h').trans (sameLetter_iff.mp h))

theorem isBlank_of_isWord (h : isWord c = true) : isBlank c = false := by
  have hbounds : 48 ≤ c.toNat ∧ c.toNat ≤ 122 := by
    unfold isWord JsNumber.isDigit at h
    simp only [Bool.or_eq_true, Bool.and_eq_true, decide_eq_true_eq] at h
    rcases h with ((hdigit | hlower) | hupper) | rfl
    · exact ⟨hdigit.1, le_trans (show c.toNat ≤ 57 from hdigit.2) (by decide)⟩
    · exact ⟨le_trans (by decide) (show 97 ≤ c.toNat from hlower.1), hlower.2⟩
    · exact ⟨le_trans (by decide) (show 65 ≤ c.toNat from hupper.1),
        le_trans (show c.toNat ≤ 90 from hupper.2) (by decide)⟩
    decide
  exact JsNumber.isBlank_of_ascii (by omega) (by omega)

theorem isWord_of_isLetter (h : isLetter c = true) : isWord c = true := by
  unfold isLetter at h
  unfold isWord
  simp only [Bool.or_eq_true] at h ⊢
  tauto

theorem isWord_sameLetter (h : sameLetter c d = true) : isWord d = isWord c := by
  rcases sameLetter_cases h with rfl | ⟨hc, hd⟩
  · rfl
  rw [isWord_of_isLetter hc, isWord_of_isLetter hd]

/-- The spot behind some characters. -/
def Spot.after (s : Spot) (word rest : Text) : Spot := ⟨word.reverse ++ s.before, rest, s.groups⟩

@[simp] theorem Spot.after_before (s : Spot) (word rest : Text) :
    (s.after word rest).before = word.reverse ++ s.before := rfl

@[simp] theorem Spot.after_rest (s : Spot) (word rest : Text) : (s.after word rest).rest = rest := rfl

@[simp] theorem Spot.after_groups (s : Spot) (word rest : Text) :
    (s.after word rest).groups = s.groups := rfl

theorem Spot.after_after (s : Spot) (first second rest rest' : Text) :
    (s.after first rest).after second rest' = s.after (first ++ second) rest' := by
  simp [Spot.after]

variable {s e : Spot} {rest word : Text}

theorem Spot.after_nil (h : s.rest = rest) : s.after [] rest = s := by
  subst h
  rfl

variable {accepts : Char → Bool} {least : Nat}

theorem mem_drop_stepsFrom {groups : List Text} {before : Text} :
    e ∈ (Spot.stepsFrom accepts groups before rest).drop least ↔
      ∃ word back, rest = word ++ back ∧ least ≤ word.length ∧ (∀ c ∈ word, accepts c = true) ∧
        e = ⟨word.reverse ++ before, back, groups⟩ := by
  induction rest generalizing before least with
  | nil =>
    cases least with
    | zero =>
      constructor
      · intro he
        exact ⟨[], [], rfl, le_refl _, by simp, List.mem_singleton.mp he⟩
      rintro ⟨word, back, hrest, -, -, rfl⟩
      obtain ⟨rfl, rfl⟩ := List.append_eq_nil_iff.mp hrest.symm
      exact List.mem_singleton.mpr rfl
    | succ least =>
      constructor
      · intro he
        rw [Spot.stepsFrom, List.drop_succ_cons, List.drop_nil] at he
        cases he
      rintro ⟨word, back, hrest, hlen, -, -⟩
      obtain ⟨rfl, rfl⟩ := List.append_eq_nil_iff.mp hrest.symm
      cases hlen
  | cons c rest ih =>
    have hmore : ∀ n, e ∈ (if accepts c then
          Spot.stepsFrom accepts groups (c :: before) rest else []).drop n ↔
        ∃ word back, rest = word ++ back ∧ n ≤ word.length ∧ (∀ d ∈ c :: word, accepts d = true) ∧
          e = ⟨(c :: word).reverse ++ before, back, groups⟩ := by
      intro n
      cases hc : accepts c with
      | true =>
        rw [if_pos rfl, ih]
        simp [hc]
      | false => simp [hc]
    have hcons : ∀ n, (∃ word back, rest = word ++ back ∧ n ≤ word.length ∧
          (∀ d ∈ c :: word, accepts d = true) ∧
          e = (⟨(c :: word).reverse ++ before, back, groups⟩ : Spot)) ↔
        ∃ word back, c :: rest = word ++ back ∧ n + 1 ≤ word.length ∧
          (∀ d ∈ word, accepts d = true) ∧ e = ⟨word.reverse ++ before, back, groups⟩ := by
      intro n
      constructor
      · rintro ⟨word, back, rfl, hlen, hall, he⟩
        exact ⟨c :: word, back, rfl, Nat.succ_le_succ hlen, hall, he⟩
      rintro ⟨word, back, hrest, hlen, hall, he⟩
      cases word with
      | nil => cases hlen
      | cons d word =>
        cases hrest
        exact ⟨word, back, rfl, Nat.le_of_succ_le_succ hlen, hall, he⟩
    rw [Spot.stepsFrom]
    cases least with
    | succ least => rw [List.drop_succ_cons, hmore, hcons]
    | zero =>
      have hzero := hmore 0
      rw [List.drop_zero] at hzero
      rw [List.drop_zero, List.mem_cons, hzero, hcons]
      constructor
      · rintro (rfl | ⟨word, back, hrest, -, hall, he⟩)
        · exact ⟨[], c :: rest, rfl, le_refl _, by simp, rfl⟩
        exact ⟨word, back, hrest, Nat.zero_le _, hall, he⟩
      rintro ⟨word, back, hrest, -, hall, he⟩
      cases word with
      | nil => exact .inl (by rw [he, hrest]; rfl)
      | cons d word => exact .inr ⟨d :: word, back, hrest, by simp, hall, he⟩

theorem mem_many : e ∈ (many least accepts).ends s ↔
      ∃ word back, s.rest = word ++ back ∧ least ≤ word.length ∧
        (∀ c ∈ word, accepts c = true) ∧ e = s.after word back := by
  rw [ends, List.mem_reverse]
  exact mem_drop_stepsFrom

theorem mem_one : e ∈ (one accepts).ends s ↔
      ∃ c back, s.rest = c :: back ∧ accepts c = true ∧ e = s.after [c] back := by
  have hfirst : ∀ before rest : Text, (Spot.stepsFrom accepts s.groups before rest).take 1 =
      [⟨before, rest, s.groups⟩] := by
    intro before rest
    cases rest <;> rfl
  rw [ends, Spot.steps]
  cases hrest : s.rest with
  | nil => simp [Spot.stepsFrom]
  | cons c back =>
    rw [Spot.stepsFrom, List.drop_succ_cons, List.drop_zero]
    cases hc : accepts c with
    | true =>
      rw [if_pos rfl, hfirst, List.mem_singleton]
      constructor
      · rintro rfl
        exact ⟨c, back, rfl, hc, rfl⟩
      rintro ⟨d, back', hcons, -, rfl⟩
      cases hcons
      rfl
    | false =>
      constructor
      · intro he
        cases he
      rintro ⟨d, back', hcons, hd, -⟩
      cases hcons
      rw [hc] at hd
      cases hd

theorem mem_boundary : e ∈ boundary.ends s ↔ e = s ∧ atBoundary s = true := by
  rw [ends]
  split
  · rename_i h
    simp [h]
  rename_i h
  simp [h]

theorem mem_seq {first second : Regex} :
    e ∈ (seq first second).ends s ↔ ∃ m ∈ first.ends s, e ∈ second.ends m := List.mem_flatMap

theorem mem_alt {first second : Regex} :
    e ∈ (alt first second).ends s ↔ e ∈ first.ends s ∨ e ∈ second.ends s := List.mem_append

variable {r : Regex}

theorem mem_group : e ∈ (group r).ends s ↔
      ∃ m ∈ r.ends s, e = { m with groups := m.groups ++ [s.upto m] } := by
  rw [ends, List.mem_map]
  simp only [eq_comm]

theorem mem_seqs_nil : e ∈ (seqs []).ends s ↔ e = s := by
  rw [seqs, mem_many]
  constructor
  · rintro ⟨word, back, hrest, -, hall, rfl⟩
    cases word with
    | nil => exact Spot.after_nil hrest
    | cons c word => cases hall c List.mem_cons_self
  rintro rfl
  exact ⟨[], e.rest, rfl, le_refl _, by simp, (Spot.after_nil rfl).symm⟩

theorem mem_seqs_cons {rest : List Regex} :
    e ∈ (seqs (r :: rest)).ends s ↔ ∃ m ∈ r.ends s, e ∈ (seqs rest).ends m := by
  cases rest with
  | nil =>
    simp only [mem_seqs_nil]
    exact ⟨fun he => ⟨e, he, rfl⟩, fun ⟨m, hm, he⟩ => he ▸ hm⟩
  | cons r' rest => exact mem_seq

theorem mem_seqs_append {front back : List Regex} :
    e ∈ (seqs (front ++ back)).ends s ↔ ∃ m ∈ (seqs front).ends s, e ∈ (seqs back).ends m := by
  induction front generalizing s with
  | nil => simp [mem_seqs_nil]
  | cons r front ih =>
    rw [List.cons_append, mem_seqs_cons]
    constructor
    · rintro ⟨m, hm, he⟩
      obtain ⟨n, hn, he⟩ := ih.mp he
      exact ⟨n, mem_seqs_cons.mpr ⟨m, hm, hn⟩, he⟩
    rintro ⟨n, hn, he⟩
    obtain ⟨m, hm, hn⟩ := mem_seqs_cons.mp hn
    exact ⟨m, hm, ih.mpr ⟨n, hn, he⟩⟩

theorem mem_ones {classes : List (Char → Bool)} : e ∈ (seqs (classes.map one)).ends s ↔
      ∃ word back, s.rest = word ++ back ∧
        List.Forall₂ (fun accepts c => accepts c = true) classes word ∧ e = s.after word back := by
  induction classes generalizing s with
  | nil =>
    rw [List.map_nil, mem_seqs_nil]
    constructor
    · rintro rfl
      exact ⟨[], e.rest, rfl, .nil, (Spot.after_nil rfl).symm⟩
    rintro ⟨word, back, hrest, hword, rfl⟩
    cases hword
    exact Spot.after_nil hrest
  | cons accepts classes ih =>
    rw [List.map_cons, mem_seqs_cons]
    constructor
    · rintro ⟨m, hm, he⟩
      obtain ⟨c, back, hrest, hc, rfl⟩ := mem_one.mp hm
      obtain ⟨word, back', hback, hword, rfl⟩ := ih.mp he
      rw [Spot.after_rest] at hback
      exact ⟨c :: word, back', by rw [hrest, hback]; rfl, .cons hc hword, Spot.after_after _ _ _ _ _⟩
    rintro ⟨word, back, hrest, hword, rfl⟩
    cases hword with
    | cons hc hword =>
      rename_i c word
      exact ⟨s.after [c] (word ++ back), mem_one.mpr ⟨c, word ++ back, hrest, hc, rfl⟩,
        ih.mpr ⟨word, back, rfl, hword, (Spot.after_after s [c] word _ _).symm⟩⟩

theorem mem_literal {text : String} : e ∈ (literal text).ends s ↔
      ∃ back, s.rest = text.toList ++ back ∧ e = s.after text.toList back := by
  have hones : literal text = seqs ((text.toList.map fun c d => decide (d = c)).map one) := by
    rw [literal, List.map_map]
    rfl
  rw [hones, mem_ones]
  simp only [List.forall₂_map_left_iff, decide_eq_true_eq]
  constructor
  · rintro ⟨word, back, hrest, hword, rfl⟩
    have hsame : word = text.toList := List.forall₂_eq_eq_eq ▸ hword.flip
    subst hsame
    exact ⟨back, hrest, rfl⟩
  rintro ⟨back, hrest, rfl⟩
  refine ⟨text.toList, back, hrest, ?_, rfl⟩
  exact List.forall₂_same.mpr fun _ _ => rfl

theorem mem_anyCase {text : String} : e ∈ (anyCase text).ends s ↔
      ∃ word back, s.rest = word ++ back ∧
        List.Forall₂ (fun c d => sameLetter c d = true) text.toList word ∧ e = s.after word back := by
  have hones : anyCase text = seqs ((text.toList.map sameLetter).map one) := by
    rw [anyCase, List.map_map]
    rfl
  rw [hones, mem_ones]
  simp only [List.forall₂_map_left_iff]

theorem mem_star_eats {ends : Spot → List Spot}
    (hends : ∀ s e, e ∈ ends s → ∃ word, s.rest = word ++ e.rest ∧ e.before = word.reverse ++ s.before)
    {fuel : Nat} (h : e ∈ starFrom ends fuel s) :
    ∃ word, s.rest = word ++ e.rest ∧ e.before = word.reverse ++ s.before := by
  induction fuel generalizing s with
  | zero =>
    obtain rfl := List.mem_singleton.mp h
    exact ⟨[], rfl, rfl⟩
  | succ fuel ih =>
    rcases List.mem_append.mp h with hmore | hself
    · obtain ⟨m, hm, he⟩ := List.mem_flatMap.mp hmore
      obtain ⟨first, hrest, hpre⟩ := hends s m (List.mem_of_mem_filter hm)
      obtain ⟨second, hrest', hbefore'⟩ := ih he
      exact ⟨first ++ second, by rw [hrest, hrest', List.append_assoc],
        by rw [hbefore', hpre, List.reverse_append, List.append_assoc]⟩
    obtain rfl := List.mem_singleton.mp hself
    exact ⟨[], rfl, rfl⟩

theorem eats (h : e ∈ r.ends s) :
    ∃ word, s.rest = word ++ e.rest ∧ e.before = word.reverse ++ s.before := by
  induction r generalizing s e with
  | one accepts =>
    obtain ⟨c, back, hrest, -, rfl⟩ := mem_one.mp h
    exact ⟨[c], hrest, rfl⟩
  | boundary =>
    obtain ⟨rfl, -⟩ := mem_boundary.mp h
    exact ⟨[], rfl, rfl⟩
  | seq first second ihfirst ihsecond =>
    obtain ⟨m, hm, he⟩ := mem_seq.mp h
    obtain ⟨word, hrest, hpre⟩ := ihfirst hm
    obtain ⟨word', hrest', hbefore'⟩ := ihsecond he
    exact ⟨word ++ word', by rw [hrest, hrest', List.append_assoc],
      by rw [hbefore', hpre, List.reverse_append, List.append_assoc]⟩
  | alt first second ihfirst ihsecond =>
    rcases mem_alt.mp h with hfirst | hsecond
    · exact ihfirst hfirst
    exact ihsecond hsecond
  | optional r ih =>
    rcases List.mem_append.mp h with hr | hself
    · exact ih hr
    obtain rfl := List.mem_singleton.mp hself
    exact ⟨[], rfl, rfl⟩
  | many least accepts =>
    obtain ⟨word, back, hrest, -, -, rfl⟩ := mem_many.mp h
    exact ⟨word, hrest, rfl⟩
  | few least accepts =>
    obtain ⟨word, back, hrest, -, -, rfl⟩ := mem_drop_stepsFrom.mp h
    exact ⟨word, hrest, rfl⟩
  | star r ih => exact mem_star_eats (fun s e he => ih he) h
  | group r ih =>
    obtain ⟨m, hm, rfl⟩ := mem_group.mp h
    obtain ⟨word, hrest, hpre⟩ := ih hm
    exact ⟨word, hrest, hpre⟩

def hasGroup : Regex → Bool
  | .seq first second | .alt first second => first.hasGroup || second.hasGroup
  | .optional r | .star r => r.hasGroup
  | .group _ => true
  | _ => false

theorem groups_star {ends : Spot → List Spot} (hends : ∀ s e, e ∈ ends s → e.groups = s.groups)
    {fuel : Nat} (h : e ∈ starFrom ends fuel s) : e.groups = s.groups := by
  induction fuel generalizing s with
  | zero => rw [List.mem_singleton.mp h]
  | succ fuel ih =>
    rcases List.mem_append.mp h with hmore | hself
    · obtain ⟨m, hm, he⟩ := List.mem_flatMap.mp hmore
      rw [ih he, hends s m (List.mem_of_mem_filter hm)]
    rw [List.mem_singleton.mp hself]

theorem groups_of_plain (hr : r.hasGroup = false) (h : e ∈ r.ends s) : e.groups = s.groups := by
  induction r generalizing s e with
  | one accepts =>
    obtain ⟨c, back, -, -, rfl⟩ := mem_one.mp h
    rfl
  | boundary => rw [(mem_boundary.mp h).1]
  | seq first second ihfirst ihsecond =>
    obtain ⟨hfirst, hsecond⟩ := (Bool.or_eq_false_iff.mp hr)
    obtain ⟨m, hm, he⟩ := mem_seq.mp h
    rw [ihsecond hsecond he, ihfirst hfirst hm]
  | alt first second ihfirst ihsecond =>
    obtain ⟨hfirst, hsecond⟩ := (Bool.or_eq_false_iff.mp hr)
    rcases mem_alt.mp h with he | he
    · exact ihfirst hfirst he
    exact ihsecond hsecond he
  | optional r ih =>
    rcases List.mem_append.mp h with he | hself
    · exact ih hr he
    rw [List.mem_singleton.mp hself]
  | many least accepts =>
    obtain ⟨word, back, -, -, -, rfl⟩ := mem_many.mp h
    rfl
  | few least accepts =>
    obtain ⟨word, back, -, -, -, rfl⟩ := mem_drop_stepsFrom.mp h
    rfl
  | star r ih => exact groups_star (fun s e he => ih hr he) h
  | group r ih => cases hr

theorem upto_eq (h : e.before = word.reverse ++ s.before) : s.upto e = word := by
  simp [Spot.upto, h]

/-- The matches from a spot are the texts with a property, whatever stands around them. -/
def Takes (r : Regex) (body : Text → Prop) : Prop :=
  ∀ s e, e ∈ r.ends s ↔ ∃ word back, s.rest = word ++ back ∧ body word ∧ e = s.after word back

/-- One text behind the other. -/
def Then (first second : Text → Prop) (word : Text) : Prop :=
  ∃ front back, word = front ++ back ∧ first front ∧ second back

/-- At least so many characters of a class. -/
def Run (least : Nat) (accepts : Char → Bool) (word : Text) : Prop :=
  least ≤ word.length ∧ ∀ c ∈ word, accepts c = true

def Exactly (count : Nat) (accepts : Char → Bool) (word : Text) : Prop :=
  word.length = count ∧ ∀ c ∈ word, accepts c = true

def Spelled (text : String) (word : Text) : Prop :=
  List.Forall₂ (fun c d => sameLetter c d = true) text.toList word

theorem takes_many (least : Nat) (accepts : Char → Bool) :
    Takes (many least accepts) (Run least accepts) := by
  intro s e
  rw [mem_many]
  unfold Run
  simp only [and_assoc]

theorem takes_one (accepts : Char → Bool) : Takes (one accepts) (Exactly 1 accepts) := by
  intro s e
  rw [mem_one]
  constructor
  · rintro ⟨c, back, hrest, hc, rfl⟩
    exact ⟨[c], back, hrest, ⟨rfl, by simpa using hc⟩, rfl⟩
  rintro ⟨word, back, hrest, ⟨hlen, hall⟩, rfl⟩
  obtain ⟨c, rfl⟩ := List.length_eq_one_iff.mp hlen
  exact ⟨c, back, hrest, hall c List.mem_cons_self, rfl⟩

theorem takes_literal (text : String) : Takes (literal text) (· = text.toList) := by
  intro s e
  rw [mem_literal]
  simp

theorem takes_anyCase (text : String) : Takes (anyCase text) (Spelled text) :=
  fun _ _ => mem_anyCase

theorem takes_nil : Takes (seqs []) (· = []) := by
  intro s e
  rw [mem_seqs_nil]
  constructor
  · rintro rfl
    exact ⟨[], e.rest, rfl, rfl, (Spot.after_nil rfl).symm⟩
  rintro ⟨word, back, hrest, rfl, rfl⟩
  exact Spot.after_nil hrest

variable {first second : Text → Prop}

theorem takes_append (front : List Regex) {back : List Regex}
    (hfirst : Takes (seqs front) first) (hsecond : Takes (seqs back) second) :
    Takes (seqs (front ++ back)) (Then first second) := by
  intro s e
  rw [mem_seqs_append]
  constructor
  · rintro ⟨m, hm, he⟩
    obtain ⟨word, rest, hrest, hword, rfl⟩ := (hfirst _ _).mp hm
    obtain ⟨word', rest', hrest', hword', rfl⟩ := (hsecond _ _).mp he
    rw [Spot.after_rest] at hrest'
    exact ⟨word ++ word', rest', by rw [hrest, hrest', List.append_assoc],
      ⟨word, word', rfl, hword, hword'⟩, Spot.after_after _ _ _ _ _⟩
  rintro ⟨word, rest, hrest, ⟨first, second, rfl, hword, hword'⟩, rfl⟩
  refine ⟨s.after first (second ++ rest), (hfirst _ _).mpr ⟨first, second ++ rest, ?_, hword, rfl⟩,
    (hsecond _ _).mpr ⟨second, rest, rfl, hword', (Spot.after_after _ _ _ _ _).symm⟩⟩
  rw [hrest, List.append_assoc]

theorem takes_cons {rest : List Regex}
    (hfirst : Takes r first) (hsecond : Takes (seqs rest) second) :
    Takes (seqs (r :: rest)) (Then first second) :=
  takes_append [r] hfirst hsecond

theorem takes_replicate (count : Nat) (accepts : Char → Bool) :
    Takes (seqs (List.replicate count (one accepts))) (Exactly count accepts) := by
  induction count with
  | zero =>
    intro s e
    rw [List.replicate_zero, takes_nil]
    unfold Exactly
    simp only [List.length_eq_zero_iff]
    constructor
    · rintro ⟨word, back, hrest, rfl, he⟩
      exact ⟨[], back, hrest, ⟨rfl, by simp⟩, he⟩
    rintro ⟨word, back, hrest, ⟨hword, -⟩, he⟩
    exact ⟨word, back, hrest, hword, he⟩
  | succ count ih =>
    intro s e
    rw [List.replicate_succ, takes_cons (takes_one accepts) ih]
    constructor
    · rintro ⟨word, back, hrest, ⟨first, second, rfl, hfirst, hsecond⟩, he⟩
      refine ⟨first ++ second, back, hrest, ⟨?_, ?_⟩, he⟩
      · rw [List.length_append, hfirst.1, hsecond.1, Nat.add_comm]
      exact List.forall_mem_append.mpr ⟨hfirst.2, hsecond.2⟩
    rintro ⟨word, back, hrest, ⟨hlen, hall⟩, he⟩
    cases word with
    | nil => cases hlen
    | cons c word =>
      exact ⟨c :: word, back, hrest, ⟨[c], word, rfl,
        ⟨rfl, fun d hd => List.mem_singleton.mp hd ▸ hall c List.mem_cons_self⟩,
        Nat.succ.inj hlen, fun d hd => hall d (List.mem_cons_of_mem _ hd)⟩, he⟩

theorem takes_alt {r' : Regex} (hfirst : Takes r first)
    (hsecond : Takes r' second) : Takes (alt r r') fun word => first word ∨ second word := by
  intro s e
  rw [mem_alt, hfirst, hsecond]
  constructor
  · rintro (⟨word, back, hrest, hword, he⟩ | ⟨word, back, hrest, hword, he⟩)
    · exact ⟨word, back, hrest, .inl hword, he⟩
    exact ⟨word, back, hrest, .inr hword, he⟩
  rintro ⟨word, back, hrest, hword | hword, he⟩
  · exact .inl ⟨word, back, hrest, hword, he⟩
  exact .inr ⟨word, back, hrest, hword, he⟩

theorem then_not_mem (hfirst : ∀ word, first word → c ∉ word)
    (hsecond : ∀ word, second word → c ∉ word) : ∀ word, Then first second word → c ∉ word := by
  rintro word ⟨front, back, rfl, hfront, hback⟩ hc
  rcases List.mem_append.mp hc with hc | hc
  · exact hfirst front hfront hc
  exact hsecond back hback hc

theorem then_longer {more : Text}
    (h : ∀ back, second back → second (back ++ more)) (hword : Then first second word) :
    Then first second (word ++ more) := by
  obtain ⟨front, back, rfl, hfront, hback⟩ := hword
  exact ⟨front, back ++ more, List.append_assoc _ _ _, hfront, h back hback⟩

theorem run_not_mem (hc : accepts c = false) : ∀ word, Run least accepts word → c ∉ word := by
  rintro word ⟨-, hall⟩ hmem
  rw [hall c hmem] at hc
  cases hc

theorem run_longer {more : Text}
    (hmore : ∀ c ∈ more, accepts c = true) (h : Run least accepts word) :
    Run least accepts (word ++ more) := by
  refine ⟨?_, List.forall_mem_append.mpr ⟨h.2, hmore⟩⟩
  rw [List.length_append]
  exact le_trans h.1 (Nat.le_add_right _ _)

theorem exactly_not_mem {count : Nat} (hc : accepts c = false) :
    ∀ word, Exactly count accepts word → c ∉ word := by
  rintro word ⟨-, hall⟩ hmem
  rw [hall c hmem] at hc
  cases hc

theorem mem_of_matchAt (h : r.matchAt s = some e) : e ∈ r.ends s :=
  List.mem_of_head? h

theorem matchAt_none : r.matchAt s = none ↔ ∀ e, e ∉ r.ends s := by
  rw [matchAt, List.head?_eq_none_iff, List.eq_nil_iff_forall_not_mem]

theorem matchAt_seq {first second : Regex} (h : (seq first second).matchAt s = some e) :
    ∃ m ∈ first.ends s, second.matchAt m = some e := by
  rw [matchAt, ends, List.head?_flatMap] at h
  exact List.exists_of_findSome?_eq_some h

theorem matchAt_seqs {front : List Regex} {last : Regex}
    (h : (seqs (front ++ [last])).matchAt s = some e) :
    ∃ m ∈ (seqs front).ends s, last.matchAt m = some e := by
  induction front generalizing s with
  | nil => exact ⟨s, mem_seqs_nil.mpr rfl, h⟩
  | cons r front ih =>
    have hseq : (seq r (seqs (front ++ [last]))).matchAt s = some e := by
      rw [List.cons_append] at h
      cases hfront : front ++ [last] with
      | nil => simp at hfront
      | cons r' rest =>
        rw [hfront] at h
        exact h
    obtain ⟨m, hm, he⟩ := matchAt_seq hseq
    obtain ⟨n, hn, he⟩ := ih he
    exact ⟨n, mem_seqs_cons.mpr ⟨m, hm, hn⟩, he⟩

theorem matchAt_group (h : (group r).matchAt s = some e) :
    ∃ m, r.matchAt s = some m ∧ e = { m with groups := m.groups ++ [s.upto m] } := by
  rw [matchAt, ends, List.head?_map] at h
  obtain ⟨m, hm, rfl⟩ := Option.map_eq_some_iff.mp h
  exact ⟨m, hm, rfl⟩

theorem getLast?_stepsFrom {groups : List Text} (before : Text) (h : (Spot.stepsFrom accepts groups before rest).getLast? = some e) :
    ∀ c ∈ e.rest.head?, accepts c = false := by
  induction rest generalizing before with
  | nil =>
    cases h
    intro c hc
    cases hc
  | cons d rest ih =>
    rw [Spot.stepsFrom] at h
    cases hd : accepts d with
    | true =>
      rw [hd, if_pos rfl] at h
      apply ih (d :: before)
      rw [← h]
      cases rest <;> rfl
    | false =>
      rw [hd] at h
      cases h
      intro c hc
      cases hc
      exact hd

theorem matchAt_many
    (h : (many least accepts).matchAt s = some e) : ∀ c ∈ e.rest.head?, accepts c = false := by
  rw [matchAt, ends, List.head?_reverse] at h
  apply getLast?_stepsFrom _
  rw [List.getLast?_drop] at h
  split at h
  · cases h
  exact h

end Regex
