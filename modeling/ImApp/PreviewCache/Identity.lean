import ImApp.Library.UnicodeText
import Mathlib.Algebra.Order.Ring.Int
import Mathlib.Data.List.Infix
import Mathlib.Data.List.Lex
import Mathlib.Data.List.Perm.Subperm
import Mathlib.Data.List.Sort

/-!
The two keys under which a preview may be stored. The current key ignores the
signature of an address and the order of its parameters; the older key is the
exact address. The address parser and the collation of texts belong to the
platform.
-/

namespace ImApp.PreviewCache

open List Bool
open JsonText (Text)

/-- What the platform reads from an absolute address. -/
structure Parsed where
  protocol : Text
  origin : Text
  pathname : Text
  params : List (Text × Text)
  deriving DecidableEq

/-- The address without its parameters. -/
def Parsed.site (parsed : Parsed) : Text := parsed.origin ++ parsed.pathname

structure Platform where
  /-- The origin of the page, empty outside the web. -/
  origin : Text
  parse : Text → Option Parsed
  /-- The absolute form of a path on the page, if it stays on its origin. -/
  resolve : Text → Option Text
  /-- The address of a site with these parameters. -/
  print : Text → List (Text × Text) → Text
  localeCompare : Text → Text → Int

def isBlank (c : Char) : Bool := c = '\ufeff' || (UnicodeText.isSpace c && c != '\u0085')

def trim (text : Text) : Text := UnicodeText.trimWhere isBlank text

/-- Lower case as far as it decides a comparison with ASCII text. -/
def toLowerCase (text : Text) : Text :=
  text.flatMap fun c =>
    if c.toNat = 0x130 then ['i', '\u0307'] else if c.toNat = 0x212a then ['k'] else [c.toLower]

def isHttp (text : Text) : Bool :=
  "http://".toList.isPrefixOf (text.map Char.toLower) ||
    "https://".toList.isPrefixOf (text.map Char.toLower)

def authQueryKeys : List Text :=
  ["expires", "ossaccesskeyid", "signature", "security-token", "token", "access_token",
    "x-oss-signature", "x-oss-signature-version", "x-oss-credential", "x-oss-date",
    "x-oss-expires", "x-oss-security-token"].map String.toList

def isAuthQueryKey (name : Text) : Bool :=
  authQueryKeys.contains (toLowerCase name) || "x-amz-".toList.isPrefixOf (toLowerCase name)

def isRelativeChatMediaPath (path : Text) : Bool :=
  "/object/".toList.isPrefixOf path || path = "/api/v1/public/oss-media".toList ||
    "/api/v1/public/oss-media?".toList.isPrefixOf path

/-- The parameters that are not about access. -/
def Parsed.kept (parsed : Parsed) : List (Text × Text) :=
  parsed.params.filter fun pair => !isAuthQueryKey pair.1

def Parsed.isWeb (parsed : Parsed) : Bool :=
  parsed.protocol = "http:".toList || parsed.protocol = "https:".toList

namespace Platform

variable (platform : Platform)

def cacheableChatMediaUrl (url : Text) : Text :=
  let raw := trim url
  if raw = [] then []
  else if isHttp raw || "blob:".toList.isPrefixOf raw then raw
  else if !isRelativeChatMediaPath raw then []
  else if !isHttp platform.origin then []
  else (platform.resolve raw).getD []

/-- The order of the sorted parameters. -/
def inOrder (a b : Text × Text) : Bool :=
  platform.localeCompare a.1 b.1 < 0 ||
    (platform.localeCompare a.1 b.1 = 0 && platform.localeCompare a.2 b.2 ≤ 0)

def mediaCacheIdentity (url : Text) : Text :=
  let raw := trim url
  if raw = [] then []
  else match platform.parse raw with
    | none => raw
    | some parsed =>
      if !parsed.isWeb then raw
      else platform.print parsed.site (parsed.kept.mergeSort platform.inOrder)

end Platform

/-- The owner and the address of a key. The store's key is their JSON text,
which differs where one of them does. -/
abbrev Key := Text × Text

def mediaCacheLegacyKey (owner url : Text) : Key := (owner, trim url)

def previewMediaCacheKey (platform : Platform) (owner url : Text) : Key :=
  (owner, platform.mediaCacheIdentity url)

/-- The order of texts by their characters. -/
def compareText (a b : Text) : Int := if a = b then 0 else if a < b then -1 else 1

theorem compareText_le (a b : Text) : compareText a b ≤ 0 ↔ ¬b < a := by
  unfold compareText
  rcases lt_trichotomy a b with hab | rfl | hab
  · simp [hab.ne, hab, lt_asymm hab]
  · simp
  simp [hab.ne', hab, lt_asymm hab]

theorem compareText_reversed (a b : Text) : 0 ≤ compareText a b ↔ compareText b a ≤ 0 := by
  unfold compareText
  rcases lt_trichotomy a b with hab | rfl | hab
  · simp [hab.ne, hab.ne', hab, lt_asymm hab]
  · simp
  simp [hab.ne, hab.ne', hab, lt_asymm hab]

theorem compareText_ordered {a b c : Text} (hab : compareText a b ≤ 0)
    (hbc : compareText b c ≤ 0) : compareText a c ≤ 0 := by
  rw [compareText_le] at hab hbc ⊢
  intro hca
  rcases lt_trichotomy a b with hlt | rfl | hlt
  · exact hbc (hca.trans hlt)
  · exact hbc hca
  exact hab hlt

/-- What the platform documents: an address of the web that it printed is read
back as it was given, and texts are compared by a total order of their collation. -/
structure Platform.Lawful (platform : Platform) : Prop where
  readsBack : ∀ {raw parsed params}, platform.parse raw = some parsed → parsed.isWeb = true →
    params.Subperm parsed.params →
      platform.parse (platform.print parsed.site params) = some { parsed with params := params }
  printed : ∀ {raw parsed params}, platform.parse raw = some parsed → parsed.isWeb = true →
    params.Subperm parsed.params →
      trim (platform.print parsed.site params) = platform.print parsed.site params ∧
        platform.print parsed.site params ≠ []
  reversed : ∀ a b, 0 ≤ platform.localeCompare a b ↔ platform.localeCompare b a ≤ 0
  ordered : ∀ {a b c}, platform.localeCompare a b ≤ 0 → platform.localeCompare b c ≤ 0 →
    platform.localeCompare a c ≤ 0

variable {platform : Platform}

theorem inOrder_total (h : platform.Lawful) (a b : Text × Text) :
    platform.inOrder a b || platform.inOrder b a := by
  have hname := h.reversed a.1 b.1
  have hname' := h.reversed b.1 a.1
  have hvalue := h.reversed a.2 b.2
  simp only [Platform.inOrder, or_eq_true, and_eq_true, decide_eq_true_eq]
  omega

theorem inOrder_trans (h : platform.Lawful) (a b c : Text × Text)
    (hab : platform.inOrder a b) (hbc : platform.inOrder b c) : platform.inOrder a c := by
  simp only [Platform.inOrder, or_eq_true, and_eq_true, decide_eq_true_eq] at hab hbc ⊢
  have hac : platform.localeCompare a.1 b.1 ≤ 0 → platform.localeCompare b.1 c.1 ≤ 0 →
      platform.localeCompare a.1 c.1 ≤ 0 := h.ordered
  have hcb : platform.localeCompare c.1 a.1 ≤ 0 → platform.localeCompare a.1 b.1 ≤ 0 →
      platform.localeCompare c.1 b.1 ≤ 0 := h.ordered
  have hba : platform.localeCompare b.1 c.1 ≤ 0 → platform.localeCompare c.1 a.1 ≤ 0 →
      platform.localeCompare b.1 a.1 ≤ 0 := h.ordered
  have hvalue : platform.localeCompare a.2 b.2 ≤ 0 → platform.localeCompare b.2 c.2 ≤ 0 →
      platform.localeCompare a.2 c.2 ≤ 0 := h.ordered
  have hca := h.reversed a.1 c.1
  have hbc' := h.reversed b.1 c.1
  have hab' := h.reversed a.1 b.1
  omega

@[simp] theorem trim_trim (text : Text) : trim (trim text) = trim text :=
  UnicodeText.trimWhere_trimWhere isBlank text

theorem mediaCacheIdentity_trim (url : Text) :
    platform.mediaCacheIdentity (trim url) = platform.mediaCacheIdentity url := by
  simp only [Platform.mediaCacheIdentity, trim_trim]

theorem kept_sorted (h : platform.Lawful) (parsed : Parsed) :
    { parsed with params := parsed.kept.mergeSort platform.inOrder }.kept.mergeSort
      platform.inOrder = parsed.kept.mergeSort platform.inOrder := by
  have hperm := mergeSort_perm parsed.kept platform.inOrder
  have hfilter : (parsed.kept.mergeSort platform.inOrder).filter
      (fun pair => !isAuthQueryKey pair.1) = parsed.kept.mergeSort platform.inOrder := by
    rw [filter_eq_self]
    intro pair hpair
    exact (mem_filter.mp (hperm.mem_iff.mp hpair)).2
  rw [Parsed.kept, hfilter]
  apply mergeSort_of_pairwise
  exact pairwise_mergeSort (inOrder_trans h) (inOrder_total h) _

theorem sorted_subperm (parsed : Parsed) :
    (parsed.kept.mergeSort platform.inOrder).Subperm parsed.params :=
  (mergeSort_perm _ _).subperm.trans filter_sublist.subperm

/-- `url` is an address of the web. -/
structure Platform.Reads (platform : Platform) (url : Text) (parsed : Parsed) : Prop where
  nonempty : trim url ≠ []
  parses : platform.parse (trim url) = some parsed
  web : parsed.isWeb = true

theorem Platform.Reads.identity {url : Text} {parsed : Parsed}
    (hurl : platform.Reads url parsed) : platform.mediaCacheIdentity url =
      platform.print parsed.site (parsed.kept.mergeSort platform.inOrder) := by
  simp [Platform.mediaCacheIdentity, hurl.nonempty, hurl.parses, hurl.web]

theorem Platform.Reads.print {url : Text} {parsed : Parsed} {params : List (Text × Text)}
    (h : platform.Lawful) (hurl : platform.Reads url parsed) (hsub : params.Subperm parsed.params) :
    platform.Reads (platform.print parsed.site params) { parsed with params := params } := by
  obtain ⟨htrim, hne⟩ := h.printed hurl.parses hurl.web hsub
  constructor
  · rw [htrim]
    exact hne
  · rw [htrim]
    exact h.readsBack hurl.parses hurl.web hsub
  exact hurl.web

theorem mediaCacheIdentity_idem (h : platform.Lawful) (url : Text) :
    platform.mediaCacheIdentity (platform.mediaCacheIdentity url) =
      platform.mediaCacheIdentity url := by
  by_cases hraw : trim url = []
  · simp [Platform.mediaCacheIdentity, hraw, show trim [] = [] from rfl]
  cases hparse : platform.parse (trim url) with
  | none =>
    have hself : platform.mediaCacheIdentity url = trim url := by
      simp [Platform.mediaCacheIdentity, hraw, hparse]
    rw [hself, mediaCacheIdentity_trim, hself]
  | some parsed =>
    by_cases hweb : parsed.isWeb = true
    · have hurl : platform.Reads url parsed := ⟨hraw, hparse, hweb⟩
      rw [hurl.identity, (hurl.print h (sorted_subperm parsed)).identity, kept_sorted h]
      rfl
    have hself : platform.mediaCacheIdentity url = trim url := by
      simp [Platform.mediaCacheIdentity, hraw, hparse, hweb]
    rw [hself, mediaCacheIdentity_trim, hself]

/-- An exact address that is the current key of any address is its own current
key. -/
theorem key_eq_of_legacyKey (h : platform.Lawful) {owner url owner' url' : Text}
    (hkey : previewMediaCacheKey platform owner' url' = mediaCacheLegacyKey owner url) :
    previewMediaCacheKey platform owner url = mediaCacheLegacyKey owner url := by
  obtain ⟨howner, hurl⟩ := Prod.mk.inj hkey
  have hown : platform.mediaCacheIdentity (trim url) = trim url := by
    rw [← hurl, mediaCacheIdentity_idem h]
  rw [mediaCacheIdentity_trim] at hown
  simp only [previewMediaCacheKey, mediaCacheLegacyKey, hown]

end ImApp.PreviewCache
