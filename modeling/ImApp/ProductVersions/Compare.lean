import ImApp.Library.JsNumber
import ImApp.Library.JsObject

/-!
The comparison of product versions, and the updates that the desktop client is offered
by it. A number is compared as the double it is read as. One beyond the range is
infinite, and two of these have no difference; numerals of one double are told apart by
their texts alone.
-/

namespace ImApp.ProductVersions

open JsonText (Text Json)
open JsNumber (isDigit digitsValue)
open JsObject List

/-- The groups of a match, split at the dots. -/
structure Groups where
  core : List Text
  prerelease : List Text
  build : List Text

def isIdentifierChar (c : Char) : Bool :=
  isDigit c || 'A' ≤ c && c ≤ 'Z' || 'a' ≤ c && c ≤ 'z' || c = '.' || c = '-'

/-- `/^\d+$/` -/
def isNumeric (part : Text) : Bool := part ≠ [] && part.all isDigit

/-- An optional group with the mark that starts it. -/
def identifiers : Text → Option (List Text)
  | [] => some []
  | _ :: rest => if rest ≠ [] && rest.all isIdentifierChar then some (rest.splitOn '.') else none

/-- The pattern of the source. The first `+` can only start the build metadata, and the
first `-` before it the prerelease. -/
def groups (value : Text) : Option Groups :=
  let main := value.takeWhile (· ≠ '+')
  let core := (main.takeWhile (· ≠ '-')).splitOn '.'
  if core.length = 3 && core.all isNumeric then
    (identifiers (main.dropWhile (· ≠ '-'))).bind fun prerelease =>
      (identifiers (value.dropWhile (· ≠ '+'))).map fun build => ⟨core, prerelease, build⟩
  else none

/-- `Number` of a numeral. Without a value it is infinite. -/
def number (digits : Text) : Option ℚ := Double.round (digitsValue 10 digits : ℕ)

structure ParsedVersion where
  core : List (Option ℚ)
  prerelease : List Text

def Groups.parsed (g : Groups) : ParsedVersion := ⟨g.core.map number, g.prerelease⟩

def parseVersion (value : Text) : Option ParsedVersion := (groups value).map Groups.parsed

/-- The sign of the difference. The difference of two infinities is `NaN`. -/
def compareNumbers : Option ℚ → Option ℚ → Option Ordering
  | some x, some y => some (compare x y)
  | some _, none => some .lt
  | none, some _ => some .gt
  | none, none => none

/-- Of two identifiers that differ, the left one is below. -/
def identifierBelow (less : Text → Text → Bool) (left right : Text) : Bool :=
  if isNumeric left && isNumeric right then less left right
  else if isNumeric left ≠ isNumeric right then isNumeric left
  else left < right

def compareIdentifiersBy (less : Text → Text → Bool) (left right : Text) : Option Ordering :=
  some (if left = right then .eq else if identifierBelow less left right then .lt else .gt)

/-- `Number(left) < Number(right)` -/
def numberLess (left right : Text) : Bool := compareNumbers (number left) (number right) = some .lt

def compareIdentifiers : Text → Text → Option Ordering := compareIdentifiersBy numberLess

/-- What comes next only counts where nothing is decided. -/
def orNext (result next : Option Ordering) : Option Ordering :=
  if result = some .eq then next else result

/-- The loop of both comparisons: the first part that differs decides. -/
def compareParts {α : Type} (f : α → α → Option Ordering) : List α → List α → Option Ordering
  | [], [] => some .eq
  | [], _ :: _ => some .lt
  | _ :: _, [] => some .gt
  | x :: xs, y :: ys => orNext (f x y) (compareParts f xs ys)

def comparePrerelease {α : Type} (f : α → α → Option Ordering) (left right : List α) :
    Option Ordering :=
  if left.length = 0 ∨ right.length = 0 then
    some (if left.length = right.length then .eq else if left.length ≠ 0 then .lt else .gt)
  else compareParts f left right

def compareParsed (left right : ParsedVersion) : Option Ordering :=
  orNext (compareParts compareNumbers left.core right.core)
    (comparePrerelease compareIdentifiers left.prerelease right.prerelease)

def compareProductVersions (left right : Text) : Except String (Option Ordering) :=
  match parseVersion left, parseVersion right with
  | some l, some r => .ok (compareParsed l r)
  | _, _ => .error "产品版本必须是有效的 SemVer"

/-- `result <= 0` -/
def atMostZero (result : Option Ordering) : Bool := result = some .lt || result = some .eq

/-- What holds of every comparison here, with `NaN` as well. -/
structure Ranks {α : Type} (f : α → α → Option Ordering) : Prop where
  same : ∀ {x y}, f x y = some .eq → x = y
  above : ∀ {x y}, f x y = some .lt → f y x = some .gt
  below : ∀ {x y z}, f x y = some .lt → f y z = some .lt → f x z = some .lt

/-- `x = -y` as numbers, of which `NaN` is none. -/
def Opposite (x y : Option Ordering) : Prop := ∃ o, x = some o ∧ y = some o.swap

variable {α : Type} {f g : α → α → Option Ordering} {x y z : α} {xs ys zs : List α}

variable {result : Option Ordering} {current latest : Text} {l r : Text} {p : α → α → Prop}

theorem atMostZero_iff : atMostZero result = true ↔ result = some .lt ∨ result = some .eq := by
  simp [atMostZero]

theorem Ranks.atMostZero_trans (h : Ranks f) (hxy : atMostZero (f x y) = true)
    (hyz : atMostZero (f y z) = true) : atMostZero (f x z) = true := by
  rcases atMostZero_iff.mp hxy with hlt | heq
  · rcases atMostZero_iff.mp hyz with hlt' | heq'
    · exact atMostZero_iff.mpr (.inl (h.below hlt hlt'))
    rwa [← h.same heq']
  rwa [h.same heq]

theorem Ranks.opposite_iff (h : Ranks f) :
    Opposite (f x y) (f y x) ↔ atMostZero (f x y) = true ∨ atMostZero (f y x) = true := by
  simp only [atMostZero_iff]
  constructor
  · rintro ⟨o, hxy, hyx⟩
    rw [hxy, hyx]
    cases o <;> decide
  rintro ((hlt | heq) | (hlt | heq))
  · exact ⟨.lt, hlt, h.above hlt⟩
  · obtain rfl := h.same heq
    exact ⟨.eq, heq, heq⟩
  · exact ⟨.gt, h.above hlt, hlt⟩
  obtain rfl := h.same heq
  exact ⟨.eq, heq, heq⟩

theorem eq_of_opposite (hx : Opposite (f x x) (f x x)) : f x x = some .eq := by
  obtain ⟨o, ho, hswap⟩ := hx
  cases o with
  | eq => exact ho
  | lt => simp [ho] at hswap
  | gt => simp [ho] at hswap

theorem orNext_some {result next : Option Ordering} {o : Ordering} : orNext result next = some o ↔
      result = some .eq ∧ next = some o ∨ o ≠ .eq ∧ result = some o := by
  unfold orNext
  split
  · rename_i heq
    rw [heq]
    simp [eq_comm]
  rename_i hne
  simp only [hne, false_and, false_or, iff_and_self]
  rintro h rfl
  exact hne h

theorem Ranks.above_next (h : Ranks f) {next next' : Option Ordering}
    (hnext : next = some .lt → next' = some .gt) (hlt : orNext (f x y) next = some .lt) :
    orNext (f y x) next' = some .gt := by
  rcases orNext_some.mp hlt with ⟨heq, hrest⟩ | ⟨hne, hfirst⟩
  · obtain rfl := h.same heq
    exact orNext_some.mpr (.inl ⟨heq, hnext hrest⟩)
  exact orNext_some.mpr (.inr ⟨by decide, h.above hfirst⟩)

theorem Ranks.below_next (h : Ranks f) {next next' next'' : Option Ordering}
    (hnext : next = some .lt → next' = some .lt → next'' = some .lt)
    (hxy : orNext (f x y) next = some .lt) (hyz : orNext (f y z) next' = some .lt) :
    orNext (f x z) next'' = some .lt := by
  rcases orNext_some.mp hxy with ⟨heq, hrest⟩ | ⟨hne, hfirst⟩
  · obtain rfl := h.same heq
    rcases orNext_some.mp hyz with ⟨heq', hrest'⟩ | ⟨hne, hfirst'⟩
    · exact orNext_some.mpr (.inl ⟨heq', hnext hrest hrest'⟩)
    exact orNext_some.mpr (.inr ⟨hne, hfirst'⟩)
  rcases orNext_some.mp hyz with ⟨heq', -⟩ | ⟨-, hfirst'⟩
  · obtain rfl := h.same heq'
    exact orNext_some.mpr (.inr ⟨hne, hfirst⟩)
  exact orNext_some.mpr (.inr ⟨hne, h.below hfirst hfirst'⟩)

theorem eq_of_parts (hsame : ∀ {x y}, f x y = some .eq → x = y)
    (h : compareParts f xs ys = some .eq) : xs = ys := by
  induction xs generalizing ys with
  | nil =>
    cases ys with
    | nil => rfl
    | cons y ys => cases h
  | cons x xs ih =>
    cases ys with
    | nil => cases h
    | cons y ys =>
      rcases orNext_some.mp h with ⟨hhead, hrest⟩ | ⟨hne, -⟩
      · rw [hsame hhead, ih hrest]
      exact absurd rfl hne

theorem Ranks.parts (h : Ranks f) : Ranks (compareParts f) where
  same := eq_of_parts h.same
  above := by
    intro xs ys hlt
    induction xs generalizing ys with
    | nil =>
      cases ys with
      | nil => cases hlt
      | cons y ys => rfl
    | cons x xs ih =>
      cases ys with
      | nil => cases hlt
      | cons y ys => exact h.above_next ih hlt
  below := by
    intro xs ys zs hxy hyz
    induction xs generalizing ys zs with
    | nil =>
      cases zs with
      | nil =>
        cases ys with
        | nil => cases hxy
        | cons y ys => cases hyz
      | cons z zs => rfl
    | cons x xs ih =>
      cases ys with
      | nil => cases hxy
      | cons y ys =>
        cases zs with
        | nil => cases hyz
        | cons z zs => exact h.below_next ih hxy hyz

theorem Ranks.prerelease (h : Ranks f) : Ranks (comparePrerelease f) where
  same := by
    intro l r hsame
    cases l with
    | nil =>
      cases r with
      | nil => rfl
      | cons y ys => simp [comparePrerelease] at hsame
    | cons x xs =>
      cases r with
      | nil => simp [comparePrerelease] at hsame
      | cons y ys => exact h.parts.same hsame
  above := by
    intro l r hlt
    cases l with
    | nil => cases r <;> simp [comparePrerelease] at hlt
    | cons x xs =>
      cases r with
      | nil => rfl
      | cons y ys => exact h.parts.above hlt
  below := by
    intro l r t hlr hrt
    cases l with
    | nil => cases r <;> simp [comparePrerelease] at hlr
    | cons x xs =>
      cases t with
      | nil => rfl
      | cons z zs =>
        cases r with
        | nil => simp [comparePrerelease] at hrt
        | cons y ys => exact h.parts.below hlr hrt

theorem ranks_numbers : Ranks compareNumbers where
  same := by
    intro x y h
    cases x <;> cases y <;> simp_all [compareNumbers]
  above := by
    intro x y h
    cases x <;> cases y <;> simp_all [compareNumbers, compare_lt_iff_lt, compare_gt_iff_gt]
  below := by
    intro x y z hxy hyz
    cases x <;> cases y <;> cases z <;> simp_all [compareNumbers, compare_lt_iff_lt]
    exact hxy.trans hyz

theorem identifiersBy_eq {less : Text → Text → Bool}
    (h : compareIdentifiersBy less l r = some .eq) : l = r := by
  unfold compareIdentifiersBy at h
  split at h
  · assumption
  split at h <;> cases h

theorem numberLess_iff :
    numberLess l r = true ↔ compareNumbers (number l) (number r) = some .lt := decide_eq_true_iff

theorem not_less_of_same (hsame : number l = number r) : numberLess l r = false := by
  unfold numberLess
  rw [hsame]
  cases number r <;> simp [compareNumbers]

theorem not_below_self (part : Text) : identifierBelow numberLess part part = false := by
  simp [identifierBelow, not_less_of_same]

theorem below_trans {l r t : Text} (hlr : identifierBelow numberLess l r = true)
    (hrt : identifierBelow numberLess r t = true) : identifierBelow numberLess l t = true := by
  unfold identifierBelow at *
  cases hl : isNumeric l <;> cases hr : isNumeric r <;> cases ht : isNumeric t <;> simp_all
  · exact hlr.trans hrt
  exact numberLess_iff.mpr (ranks_numbers.below (numberLess_iff.mp hlr) (numberLess_iff.mp hrt))

theorem compareIdentifiers_lt :
    compareIdentifiers l r = some .lt ↔ identifierBelow numberLess l r = true := by
  unfold compareIdentifiers compareIdentifiersBy
  by_cases hsame : l = r
  · subst hsame
    simp [not_below_self]
  cases hbelow : identifierBelow numberLess l r <;> simp [hsame]

theorem ranks_identifiers : Ranks compareIdentifiers where
  same := identifiersBy_eq
  above := by
    intro l r h
    have hbelow := compareIdentifiers_lt.mp h
    have hback : identifierBelow numberLess r l = false := by
      by_contra hback
      have hself := below_trans hbelow (Bool.not_eq_false _ ▸ hback)
      rw [not_below_self] at hself
      cases hself
    have hne : r ≠ l := by
      rintro rfl
      rw [hback] at hbelow
      cases hbelow
    simp [compareIdentifiers, compareIdentifiersBy, hne, hback]
  below := by
    intro l r t hlr hrt
    rw [compareIdentifiers_lt] at *
    exact below_trans hlr hrt

theorem ranks_parsed : Ranks compareParsed where
  same := by
    intro l r h
    obtain ⟨core, prerelease⟩ := l
    rw [ParsedVersion.mk.injEq]
    rcases orNext_some.mp h with ⟨hcore, hrest⟩ | ⟨hne, -⟩
    · exact ⟨ranks_numbers.parts.same hcore, ranks_identifiers.prerelease.same hrest⟩
    exact absurd rfl hne
  above := ranks_numbers.parts.above_next ranks_identifiers.prerelease.above
  below := ranks_numbers.parts.below_next ranks_identifiers.prerelease.below

/-- `p` holds of the parts up to the first ones that differ. -/
def UpToFirst (p : α → α → Prop) : List α → List α → Prop
  | x :: xs, y :: ys => p x y ∧ (x = y → UpToFirst p xs ys)
  | _, _ => True

/-- Not both are infinite. -/
def OneFinite (x y : Option ℚ) : Prop := x ≠ none ∨ y ≠ none

/-- Two numerals of one double are the same text. -/
def ToldApart (l r : Text) : Prop :=
  isNumeric l = true → isNumeric r = true → number l = number r → l = r

structure Settled (l r : ParsedVersion) : Prop where
  core : UpToFirst OneFinite l.core r.core
  prerelease : l.core = r.core → UpToFirst ToldApart l.prerelease r.prerelease

theorem Ranks.opposite_next (h : Ranks f) (next next' : Option Ordering) :
    Opposite (orNext (f x y) next) (orNext (f y x) next') ↔
      Opposite (f x y) (f y x) ∧ (x = y → Opposite next next') := by
  by_cases heq : f x y = some .eq
  · obtain rfl := h.same heq
    have hself : Opposite (f x x) (f x x) := ⟨.eq, heq, heq⟩
    simp [orNext, heq, heq ▸ hself]
  have hback : f y x ≠ some .eq := by
    intro hback
    obtain rfl := h.same hback
    exact heq hback
  simp only [orNext, if_neg heq, if_neg hback, iff_self_and]
  rintro hopposite rfl
  exact absurd (eq_of_opposite hopposite) heq

theorem Ranks.opposite_parts (h : Ranks f) (hp : ∀ x y, Opposite (f x y) (f y x) ↔ p x y) :
    Opposite (compareParts f xs ys) (compareParts f ys xs) ↔ UpToFirst p xs ys := by
  induction xs generalizing ys with
  | nil =>
    cases ys with
    | nil => exact iff_of_true ⟨.eq, rfl, rfl⟩ trivial
    | cons y ys => exact iff_of_true ⟨.lt, rfl, rfl⟩ trivial
  | cons x xs ih =>
    cases ys with
    | nil => exact iff_of_true ⟨.gt, rfl, rfl⟩ trivial
    | cons y ys => rw [compareParts, compareParts, h.opposite_next, hp, ih, UpToFirst]

theorem Ranks.opposite_prerelease (h : Ranks f) (hp : ∀ x y, Opposite (f x y) (f y x) ↔ p x y) :
    Opposite (comparePrerelease f xs ys) (comparePrerelease f ys xs) ↔ UpToFirst p xs ys := by
  cases xs with
  | nil =>
    cases ys with
    | nil => exact iff_of_true ⟨.eq, rfl, rfl⟩ trivial
    | cons y ys => exact iff_of_true ⟨.gt, rfl, rfl⟩ trivial
  | cons x xs =>
    cases ys with
    | nil => exact iff_of_true ⟨.lt, rfl, rfl⟩ trivial
    | cons y ys => exact h.opposite_parts hp

theorem opposite_numbers (x y : Option ℚ) :
    Opposite (compareNumbers x y) (compareNumbers y x) ↔ OneFinite x y := by
  cases x with
  | none => cases y <;> simp [compareNumbers, Opposite, OneFinite]
  | some x =>
    cases y with
    | none => simp [compareNumbers, Opposite, OneFinite]
    | some y =>
      have hswap : compare y x = (compare x y).swap := Std.OrientedCmp.eq_swap
      exact iff_of_true ⟨compare x y, rfl, by rw [compareNumbers, hswap]⟩ (.inl (by simp))

theorem numbers_total {x y : Option ℚ} (hne : x ≠ y) :
    compareNumbers x y = some .lt ∨ compareNumbers y x = some .lt := by
  cases x <;> cases y <;> simp_all [compareNumbers, compare_lt_iff_lt]

theorem opposite_identifiers (l r : Text) :
    Opposite (compareIdentifiers l r) (compareIdentifiers r l) ↔ ToldApart l r := by
  rw [ranks_identifiers.opposite_iff]
  simp only [atMostZero_iff, compareIdentifiers_lt]
  constructor
  · intro h hl hr hsame
    have hnot : ∀ {x y}, isNumeric x = true → isNumeric y = true → number x = number y →
        ¬ identifierBelow numberLess x y = true := by
      intro x y hx hy hxy
      simp [identifierBelow, hx, hy, not_less_of_same hxy]
    rcases h with (hbelow | heq) | (hbelow | heq)
    · exact absurd hbelow (hnot hl hr hsame)
    · exact identifiersBy_eq heq
    · exact absurd hbelow (hnot hr hl hsame.symm)
    exact (identifiersBy_eq heq).symm
  intro hapart
  by_cases hne : l = r
  · exact .inl (.inr (by simp [compareIdentifiers, compareIdentifiersBy, hne]))
  have htotal : identifierBelow numberLess l r = true ∨ identifierBelow numberLess r l = true := by
    unfold identifierBelow
    cases hl : isNumeric l <;> cases hr : isNumeric r
    · simpa using lt_or_gt_of_ne hne
    · simp
    · simp
    simpa [numberLess] using numbers_total fun hsame => hne (hapart hl hr hsame)
  exact htotal.imp .inl .inl

theorem opposite_parsed (l r : ParsedVersion) :
    Opposite (compareParsed l r) (compareParsed r l) ↔ Settled l r := by
  unfold compareParsed
  rw [ranks_numbers.parts.opposite_next, ranks_numbers.opposite_parts opposite_numbers,
    ranks_identifiers.opposite_prerelease opposite_identifiers]
  exact ⟨fun h => ⟨h.1, h.2⟩, fun h => ⟨h.core, h.prerelease⟩⟩

def valueLess (l r : Text) : Bool := digitsValue 10 l < digitsValue 10 r

/-- Numerals without leading zeros differ in value where they differ. -/
def numeralPrecedence (l r : Text) : Option Ordering :=
  some (if l = r then .eq else if valueLess l r then .lt else .gt)

/-- The precedence of valid versions: the core decides first, a version without a
prerelease stands above one with it, and the identifiers decide from left to right,
numerals as numbers and below the others. -/
def precedence (l r : Groups) : Option Ordering :=
  orNext (compareParts numeralPrecedence l.core r.core)
    (comparePrerelease (compareIdentifiersBy valueLess) l.prerelease r.prerelease)

/-- The doubles of compared numerals stand as their numbers do. -/
structure InOrder (l r : Groups) : Prop where
  core : UpToFirst (fun x y => compareNumbers (number x) (number y) = numeralPrecedence x y)
    l.core r.core
  prerelease : l.core = r.core → UpToFirst (fun x y => x ≠ y → isNumeric x = true →
    isNumeric y = true → numberLess x y = valueLess x y) l.prerelease r.prerelease

theorem parts_congr (hp : ∀ x y, p x y → f x y = g x y)
    (hsame : ∀ {x y}, g x y = some .eq → x = y) (h : UpToFirst p xs ys) :
    compareParts f xs ys = compareParts g xs ys := by
  induction xs generalizing ys with
  | nil => cases ys <;> rfl
  | cons x xs ih =>
    cases ys with
    | nil => rfl
    | cons y ys =>
      unfold compareParts
      rw [hp x y h.1]
      unfold orNext
      split
      · exact ih (h.2 (hsame ‹_›))
      rfl

theorem compareParts_map (xs ys : List Text) :
    compareParts compareNumbers (xs.map number) (ys.map number) =
      compareParts (fun x y => compareNumbers (number x) (number y)) xs ys := by
  induction xs generalizing ys with
  | nil => cases ys <;> rfl
  | cons x xs ih =>
    cases ys with
    | nil => rfl
    | cons y ys => exact congrArg (orNext _) (ih ys)

theorem numeralPrecedence_eq (h : numeralPrecedence l r = some .eq) : l = r := by
  unfold numeralPrecedence at h
  split at h
  · assumption
  split at h <;> cases h

theorem parsed_precedence {l r : Groups} (h : InOrder l r) :
    compareParsed l.parsed r.parsed = precedence l r := by
  have hcore := parts_congr (fun _ _ h => h) numeralPrecedence_eq h.core
  unfold compareParsed precedence Groups.parsed
  rw [compareParts_map, hcore]
  unfold orNext
  split
  · have hrest := h.prerelease (eq_of_parts numeralPrecedence_eq ‹_›)
    unfold comparePrerelease
    have hlists : compareParts compareIdentifiers l.prerelease r.prerelease =
        compareParts (compareIdentifiersBy valueLess) l.prerelease r.prerelease := by
      apply parts_congr _ identifiersBy_eq hrest
      intro x y hless
      unfold compareIdentifiers compareIdentifiersBy identifierBelow
      by_cases hsame : x = y
      · rw [if_pos hsame, if_pos hsame]
      cases hx : isNumeric x <;> cases hy : isNumeric y <;> simp [hsame]
      rw [hless hsame hx hy]
    rw [hlists]
  rfl

structure Installer where
  downloadUrl : Text
  fileName : Text
  size : Nat
  deriving DecidableEq

structure DesktopUpdateInformation extends Installer where
  platform : String
  architecture : String
  currentVersion : Text
  latestVersion : Text

inductive DesktopUpdateSelection where
  | updateAvailable (update : DesktopUpdateInformation)
  | noUpdate
  | installerUnavailable

/-- A safe integer above zero, in the spelling of a number. -/
def positiveSafeInteger (literal : Text) : Option Nat :=
  if isNumeric literal && literal.head? ≠ some '0' && digitsValue 10 literal < 2 ^ 53 then
    some (digitsValue 10 literal)
  else none

def validInstaller (installer : Value) : Option Installer :=
  match readOptional installer "available", readOptional installer "downloadUrl",
    readOptional installer "fileName", readOptional installer "size" with
  | some (.bool true), some (.string downloadUrl), some (.string fileName), some (.number size) =>
    if "/api/".toList.isPrefixOf downloadUrl && fileName ≠ [] then
      (positiveSafeInteger size).map fun size => ⟨downloadUrl, fileName, size⟩
    else none
  | _, _, _, _ => none

/-- The names of a platform and an architecture in the information. -/
def target (platform architecture : String) : Option (String × String) :=
  if platform = "darwin" && (architecture = "arm64" || architecture = "x64") then
    some ("macos", architecture)
  else if platform = "win32" &&
      (architecture = "ia32" || architecture = "x64" || architecture = "arm64") then
    some ("windows", if architecture = "ia32" then "x86" else architecture)
  else none

/-- What is no object has no members. -/
def evaluateDesktopUpdate (value : Value) (currentVersion : Text) (platform architecture : String) :
    DesktopUpdateSelection :=
  let clients := readOptional value "clients"
  if !strictEq (readOptional value "product") (some (text "viron".toList)) || !truthy clients then
    .installerUnavailable
  else
    match target platform architecture with
    | none => .installerUnavailable
    | some (platform, architecture) =>
      let client := readOptional clients platform
      let installer := readOptional (readOptional client "installers") architecture
      let latestVersion := match readOptional installer "version" with
        | some (.string version) => some (Json.string version)
        | _ => readOptional client "latestVersion"
      match latestVersion with
      | some (.string latestVersion) =>
        match compareProductVersions latestVersion currentVersion with
        | .error _ => .installerUnavailable
        | .ok result =>
          if atMostZero result then .noUpdate
          else
            match validInstaller installer with
            | none => .installerUnavailable
            | some installer => .updateAvailable
                { installer with platform, architecture, currentVersion, latestVersion }
      | _ => .installerUnavailable

/-- Some information offers `latest` to the version `current`. -/
def Offers (current latest : Text) : Prop :=
  ∃ value platform architecture update,
    evaluateDesktopUpdate value current platform architecture = .updateAvailable update ∧
      update.latestVersion = latest

theorem not_atMostZero_of_offers (h : Offers current latest) :
    ∃ result, compareProductVersions latest current = .ok result ∧ atMostZero result = false := by
  obtain ⟨value, platform, architecture, update, hupdate, rfl⟩ := h
  unfold evaluateDesktopUpdate at hupdate
  simp only [] at hupdate
  split at hupdate
  · cases hupdate
  split at hupdate
  · cases hupdate
  split at hupdate
  case h_2 => cases hupdate
  split at hupdate
  · cases hupdate
  rename_i result hres
  split at hupdate
  · cases hupdate
  rename_i hgreater
  split at hupdate
  · cases hupdate
  cases hupdate
  exact ⟨result, hres, by simpa using hgreater⟩

def sampleInstaller : Installer := ⟨"/api/installer".toList, "viron.dmg".toList, 1⟩

/-- The information of a server with one installer. -/
def sampleInformation (latest : Text) : Json := object [("product", text "viron".toList),
  ("clients", object [("macos", object [("latestVersion", text latest), ("installers", object
    [("arm64", object [("available", .bool true), ("downloadUrl", text sampleInstaller.downloadUrl),
      ("fileName", text sampleInstaller.fileName), ("size", .number ['1'])])])])])]

theorem offers_of_not_atMostZero (hres : compareProductVersions latest current = .ok result)
    (hgreater : atMostZero result = false) : Offers current latest := by
  refine ⟨some (sampleInformation latest), "darwin", "arm64",
    ⟨sampleInstaller, "macos", "arm64", current, latest⟩, ?_, rfl⟩
  have htgt : target "darwin" "arm64" = some ("macos", "arm64") := by decide
  have htruthy (fields : List (String × Json)) : truthy (some (object fields)) = true := rfl
  have hproduct : strictEq (some (text "viron".toList)) (some (text "viron".toList)) = true := by
    decide
  have hinstaller : validInstaller (some (object [("available", .bool true),
      ("downloadUrl", text sampleInstaller.downloadUrl), ("fileName", text sampleInstaller.fileName),
      ("size", .number ['1'])])) = some sampleInstaller := by
    decide
  simp only [evaluateDesktopUpdate, sampleInformation, htgt, readOptional_object, htruthy,
    member_object_cons, String.reduceEq, reduceIte, hproduct, Bool.not_true, Bool.or_self, hinstaller]
  simp only [member_object_nil, text, hres, hgreater, Bool.false_eq_true, reduceIte]

theorem offers_iff (hres : compareProductVersions latest current = .ok result) :
    Offers current latest ↔ atMostZero result = false := by
  constructor
  · intro h
    obtain ⟨other, hother, hgreater⟩ := not_atMostZero_of_offers h
    cases hres.symm.trans hother
    exact hgreater
  exact offers_of_not_atMostZero hres

theorem compareProductVersions_ok {left right : Text}
    (h : compareProductVersions left right = .ok result) : ∃ l r, parseVersion left = some l ∧
      parseVersion right = some r ∧ result = compareParsed l r := by
  unfold compareProductVersions at h
  split at h
  · rename_i l r hl hr
    cases h
    exact ⟨l, r, hl, hr, rfl⟩
  cases h

theorem compareProductVersions_parsed {left right : Text} {l r : ParsedVersion}
    (hl : parseVersion left = some l) (hr : parseVersion right = some r) :
    compareProductVersions left right = .ok (compareParsed l r) := by
  simp [compareProductVersions, hl, hr]

theorem parseVersion_build {main build : Text} (hmain : '+' ∉ main) (hne : build ≠ [])
    (hbuild : build.all isIdentifierChar = true) :
    parseVersion (main ++ '+' :: build) = parseVersion main := by
  have hpre : ∀ c ∈ main, decide (c ≠ '+') = true := by
    intro c hc
    simpa using fun h : c = '+' => hmain (h ▸ hc)
  have htake : (main ++ '+' :: build).takeWhile (· ≠ '+') = main.takeWhile (· ≠ '+') := by
    rw [takeWhile_append_of_pos hpre, takeWhile_eq_self_iff.mpr hpre]
    simp
  have hdrop : (main ++ '+' :: build).dropWhile (· ≠ '+') = '+' :: build := by
    rw [dropWhile_append_of_pos hpre]
    simp
  have hpart : identifiers ('+' :: build) = some (build.splitOn '.') := by
    simp [identifiers, hne, hbuild]
  unfold parseVersion groups
  rw [htake, hdrop, hpart, dropWhile_eq_nil_iff.mpr hpre]
  simp only []
  split
  · cases identifiers ((main.takeWhile (· ≠ '+')).dropWhile (· ≠ '-')) <;> rfl
  rfl

end ImApp.ProductVersions
